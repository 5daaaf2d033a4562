import Mathlib.Algebra.BigOperators.Group.List.Basic
import Mathlib.Data.Nat.ModEq
import PluginSdk.PartialRun

/-! A ring of cells that responses of bounded length are added to, each from the
cell that is taken next. A value taken out is the sum of the responses that have
not ended, each at the number of values taken since it was added. -/

namespace RingAccumulator

variable {R T : Type*}

inductive Event (R : Type*)
  | add (r : R)
  | pop

def pops : List (Event R) → Nat
  | [] => 0
  | .add _ :: es => pops es
  | .pop :: es => pops es + 1

/-- What was added, with the number of values taken before. -/
def additions (taken : Nat) : List (Event R) → List (Nat × R)
  | [] => []
  | .add r :: es => (taken, r) :: additions taken es
  | .pop :: es => additions (taken + 1) es

theorem pops_append (es fs : List (Event R)) : pops (es ++ fs) = pops es + pops fs := by
  induction es with
  | nil => simp [pops]
  | cons e es ih =>
    cases e with
    | add r => exact ih
    | pop =>
      rw [List.cons_append, pops, pops, ih]
      omega

theorem additions_append (taken : Nat) (es fs : List (Event R)) :
    additions taken (es ++ fs) = additions taken es ++ additions (taken + pops es) fs := by
  induction es generalizing taken with
  | nil => rfl
  | cons e es ih =>
    cases e with
    | add r => exact congrArg ((taken, r) :: ·) (ih taken)
    | pop =>
      rw [List.cons_append, additions, additions, ih, pops, Nat.add_right_comm, Nat.add_assoc]

/-- Where in the run an addition was made. -/
theorem split_of_mem_additions {taken : Nat} {es : List (Event R)} {a : Nat × R}
    (ha : a ∈ additions taken es) :
    ∃ pre post, es = pre ++ .add a.2 :: post ∧ a.1 = taken + pops pre := by
  induction es generalizing taken with
  | nil => exact absurd ha List.not_mem_nil
  | cons e es ih =>
    cases e with
    | add r =>
      rcases List.mem_cons.mp ha with he | ha
      · rw [he]
        exact ⟨[], es, rfl, rfl⟩
      · obtain ⟨pre, post, hes, hstart⟩ := ih ha
        exact ⟨.add r :: pre, post, congrArg _ hes, hstart⟩
    | pop =>
      obtain ⟨pre, post, hes, hstart⟩ := ih ha
      refine ⟨.pop :: pre, post, congrArg _ hes, ?_⟩
      rw [hstart, pops]
      omega

theorem additions_start_le {taken : Nat} {es : List (Event R)} {a : Nat × R}
    (ha : a ∈ additions taken es) : a.1 ≤ taken + pops es := by
  obtain ⟨pre, post, hes, hstart⟩ := split_of_mem_additions ha
  rw [hstart, hes, pops_append]
  omega

theorem mem_of_mem_additions {taken : Nat} {es : List (Event R)} {a : Nat × R}
    (ha : a ∈ additions taken es) : .add a.2 ∈ es := by
  obtain ⟨pre, post, hes, -⟩ := split_of_mem_additions ha
  rw [hes]
  exact List.mem_append_right pre List.mem_cons_self

section

variable [AddMonoid T] (N : Nat) (response : R → Nat → T)

/-- The additions that the `n`-th value is made of. -/
def heard (es : List (Event R)) (n : Nat) : List (Nat × R) :=
  (additions 0 es).filter fun a => a.1 ≤ n ∧ n < a.1 + N

/-- The `n`-th value, in the order of the additions. -/
def superposition (es : List (Event R)) (n : Nat) : T :=
  ((heard N es n).map fun a => response a.2 (n - a.1)).sum

/-- After `es` the ring holds what is still to come of the responses. -/
structure Superposes (es : List (Event R)) (cells : Vector T N) (pos : Nat) (outputs : List T) :
    Prop where
  pos_lt : pos < N
  cell : ∀ k < N, cells[(pos + k) % N]? = some (superposition N response es (pops es + k))
  outputs_eq : outputs = (List.range (pops es)).map (superposition N response es)

end

section

variable {N : Nat}

theorem heard_add_of_le (es : List (Event R)) (r : R) {n : Nat} (hle : pops es ≤ n)
    (hlt : n < pops es + N) :
    heard N (es ++ [.add r]) n = heard N es n ++ [(pops es, r)] := by
  have hlast : [(pops es, r)].filter (fun a => a.1 ≤ n ∧ n < a.1 + N) = [(pops es, r)] := by
    simp [hle, hlt]
  rw [heard, heard, additions_append, List.filter_append, Nat.zero_add, additions, additions, hlast]

theorem heard_add_of_lt (es : List (Event R)) (r : R) {n : Nat} (hlt : n < pops es) :
    heard N (es ++ [.add r]) n = heard N es n := by
  have hlast : [(pops es, r)].filter (fun a => a.1 ≤ n ∧ n < a.1 + N) = [] := by
    simp [hlt]
  rw [heard, heard, additions_append, List.filter_append, Nat.zero_add, additions, additions, hlast,
    List.append_nil]

theorem heard_pop (es : List (Event R)) (n : Nat) :
    heard N (es ++ [.pop]) n = heard N es n := by
  rw [heard, heard, additions_append]
  exact congrArg _ (List.append_nil _)

/-- Every response has ended `N` values after the latest addition. -/
theorem heard_eq_nil (es : List (Event R)) {n : Nat} (h : pops es + N ≤ n) :
    heard N es n = [] := by
  rw [heard, List.filter_eq_nil_iff]
  intro a ha
  have hstart := additions_start_le ha
  rw [decide_eq_true_eq]
  omega

end

section

variable {N : Nat}

/-- Cells ahead of `pos` by different distances are different cells. -/
theorem slot_inj {pos j k : Nat} (hj : j < N) (hk : k < N)
    (h : (pos + j) % N = (pos + k) % N) : j = k := by
  have hmod : j ≡ k [MOD N] := Nat.ModEq.add_left_cancel' pos h
  rwa [Nat.ModEq, Nat.mod_eq_of_lt hj, Nat.mod_eq_of_lt hk] at hmod

theorem slot_next (pos k : Nat) : ((pos + 1) % N + k) % N = (pos + (k + 1)) % N := by
  rw [Nat.mod_add_mod, Nat.add_assoc, Nat.add_comm 1]

variable [AddMonoid T]

def addAt (cells : Vector T N) (i : Nat) (v : T) : Option (Vector T N) :=
  if h : i < N then some (cells.set i (cells[i] + v)) else none

def clearAt (cells : Vector T N) (i : Nat) : Option (Vector T N) :=
  if h : i < N then some (cells.set i 0) else none

theorem addAt_eq {cells : Vector T N} {i : Nat} {u : T} (hu : cells[i]? = some u) (v : T) :
    ∃ cells', addAt cells i v = some cells' ∧ cells'[i]? = some (u + v) ∧
      ∀ k, k ≠ i → cells'[k]? = cells[k]? := by
  obtain ⟨hi, hui⟩ := Vector.getElem?_eq_some_iff.mp hu
  refine ⟨cells.set i (cells[i] + v), dif_pos hi, ?_, fun k hk => ?_⟩
  · rw [Vector.getElem?_set_self, hui]
  · exact Vector.getElem?_set_ne hi hk.symm

theorem clearAt_eq (cells : Vector T N) {i : Nat} (hi : i < N) :
    ∃ cells', clearAt cells i = some cells' ∧ cells'[i]? = some 0 ∧
      ∀ k, k ≠ i → cells'[k]? = cells[k]? := by
  refine ⟨cells.set i 0, dif_pos hi, ?_, fun k hk => ?_⟩
  · rw [Vector.getElem?_set_self]
  · exact Vector.getElem?_set_ne hi hk.symm

/-- A response is added from `pos` on, one cell a round. -/
theorem run_addAt {cells : Vector T N} {pos : Nat} {pending : Nat → T}
    (hcell : ∀ k < N, cells[(pos + k) % N]? = some (pending k)) (response : Nat → T) :
    ∃ cells', PartialRun.run (fun cells j => addAt cells ((pos + j) % N) (response j)) cells
        (List.range N) = some cells' ∧
      ∀ k < N, cells'[(pos + k) % N]? = some (pending k + response k) := by
  have hloop : ∃ cells', PartialRun.run (fun cells j => addAt cells ((pos + j) % N) (response j))
        cells (List.range N) = some cells' ∧
      ∀ k < N, cells'[(pos + k) % N]? =
        some (if k < N then pending k + response k else pending k) := by
    refine PartialRun.run_range (P := fun i (cells : Vector T N) => ∀ k < N,
      cells[(pos + k) % N]? = some (if k < i then pending k + response k else pending k)) ?_ ?_
    · intro k hk
      rw [if_neg (Nat.not_lt_zero k), hcell k hk]
    · intro i t hi ht
      have hold := ht i hi
      rw [if_neg (lt_irrefl i)] at hold
      obtain ⟨u, hu, hself, hother⟩ := addAt_eq hold (response i)
      refine ⟨u, hu, fun k hk => ?_⟩
      rcases eq_or_ne k i with rfl | hne
      · rw [hself, if_pos (Nat.lt_succ_self k)]
      · have hslot : (pos + k) % N ≠ (pos + i) % N := fun h => hne (slot_inj hk hi h)
        have hle : k < i + 1 ↔ k < i := by omega
        rw [hother _ hslot, ht k hk, if_congr hle rfl rfl]
  obtain ⟨cells', hrun, hcells'⟩ := hloop
  exact ⟨cells', hrun, fun k hk => by rw [hcells' k hk, if_pos hk]⟩

end

section

variable [AddMonoid T] {N : Nat} {response : R → Nat → T}

theorem superposes_init (hN : 0 < N) :
    Superposes N response [] (Vector.replicate N 0) 0 [] where
  pos_lt := hN
  cell k hk := by
    rw [Nat.zero_add, Nat.mod_eq_of_lt hk, Vector.getElem?_replicate, if_pos hk]
    rfl
  outputs_eq := rfl

namespace Superposes

variable {es : List (Event R)} {cells : Vector T N} {pos : Nat} {outputs : List T}

theorem add (h : Superposes N response es cells pos outputs) (r : R) :
    ∃ cells', PartialRun.run (fun cells j => addAt cells ((pos + j) % N) (response r j)) cells
        (List.range N) = some cells' ∧
      Superposes N response (es ++ [.add r]) cells' pos outputs := by
  obtain ⟨cells', hrun, hcells'⟩ := run_addAt h.cell (response r)
  have hpops : pops (es ++ [.add r]) = pops es := pops_append es [.add r]
  refine ⟨cells', hrun, h.pos_lt, fun k hk => ?_, ?_⟩
  · rw [hcells' k hk, hpops, superposition, superposition,
      heard_add_of_le es r (Nat.le_add_right _ k) (by omega), List.map_append, List.sum_append,
      List.map_singleton, List.sum_singleton, Nat.add_sub_cancel_left]
  · rw [h.outputs_eq, hpops]
    refine List.map_congr_left fun n hn => ?_
    rw [superposition, superposition, heard_add_of_lt es r (List.mem_range.mp hn)]

theorem pop (h : Superposes N response es cells pos outputs) :
    ∃ v cells', cells[pos]? = some v ∧ clearAt cells pos = some cells' ∧
      Superposes N response (es ++ [.pop]) cells' ((pos + 1) % N) (outputs ++ [v]) := by
  have hpos := h.pos_lt
  obtain ⟨cells', hclear, hself, hother⟩ := clearAt_eq cells hpos
  have hv := h.cell 0 (by omega)
  rw [Nat.add_zero, Nat.mod_eq_of_lt hpos] at hv
  have hpops : pops (es ++ [.pop]) = pops es + 1 := pops_append es [.pop]
  have hsame (n : Nat) : superposition N response (es ++ [.pop]) n = superposition N response es n := by
    rw [superposition, superposition, heard_pop]
  refine ⟨_, cells', hv, hclear, Nat.mod_lt _ (by omega), fun k hk => ?_, ?_⟩
  · rw [slot_next, hpops, hsame]
    by_cases hlast : k + 1 < N
    · have hslot : (pos + (k + 1)) % N ≠ pos := by
        intro he
        have hzero : (pos + (k + 1)) % N = (pos + 0) % N := by
          rw [he, Nat.add_zero, Nat.mod_eq_of_lt hpos]
        exact absurd (slot_inj hlast (by omega) hzero) (by omega)
      rw [hother _ hslot, h.cell _ hlast, Nat.add_right_comm, Nat.add_assoc]
    · -- the cell just cleared is the farthest one now
      have hend : k + 1 = N := by omega
      rw [hend, Nat.add_mod_right, Nat.mod_eq_of_lt hpos, hself, superposition,
        heard_eq_nil es (by omega)]
      rfl
  · rw [h.outputs_eq, hpops, List.range_succ, List.map_append, List.map_singleton]
    rw [hsame, Nat.add_zero, List.map_congr_left fun n _ => hsame n]

end Superposes

end

end RingAccumulator
