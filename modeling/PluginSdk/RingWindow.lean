import PluginSdk.Cells
import PluginSdk.RingAccumulator

/-! A ring of cells that holds a list, one position a cell, from a position
that only grows. Copies into the ring and out of it are made in two pieces
where they pass the last cell. -/

namespace RingWindow

variable {T : Type*} {S : Nat}

/-- The cells from position `a` on hold `xs`; what the others hold is left open. -/
structure Holds (cells : Vector T S) (a : Nat) (xs : List T) : Prop where
  length_le : xs.length ≤ S
  cell : ∀ k < xs.length, cells[(a + k) % S]? = xs[k]?

def copyIn (cells : Vector T S) (i : Nat) (src : List T) : Option (Vector T S) := do
  let front ← Cells.fill? cells i (fun c => src[(c - i).toNat]?) (min (i + src.length) S - i)
  if S < i + src.length then
    Cells.fill? front 0 (fun c => src[(c + (S - i : Nat)).toNat]?) (i + src.length - S)
  else some front

def copyOut (cells : Vector T S) (i n : Nat) : Option (List T) := do
  let front ← Cells.gather? cells i (min (i + n) S - i)
  if S < i + n then do
    let back ← Cells.gather? cells 0 (i + n - S)
    some (front ++ back)
  else some front

theorem slot_of_lt {i k : Nat} (h : i + k < S) : (i + k) % S = i + k := Nat.mod_eq_of_lt h

theorem slot_of_ge {i k : Nat} (h : S ≤ i + k) (hlt : i + k < 2 * S) : (i + k) % S = i + k - S := by
  rw [Nat.mod_eq_sub_mod h]
  exact Nat.mod_eq_of_lt (by omega)

theorem slot_add (p k : Nat) : (p % S + k) % S = (p + k) % S := Nat.mod_add_mod p S k

theorem copyIn_eq (cells : Vector T S) {i : Nat} (src : List T) (hi : i < S) (hn : src.length ≤ S) :
    ∃ cells', copyIn cells i src = some cells' ∧
      (∀ k < src.length, cells'[(i + k) % S]? = src[k]?) ∧
      ∀ j < S, (∀ k < src.length, j ≠ (i + k) % S) → cells'[j]? = cells[j]? := by
  have hin (k : Nat) (hk : k < src.length) : ∃ v, src[k]? = some v :=
    ⟨src[k], List.getElem?_eq_getElem hk⟩
  obtain ⟨front, hfront⟩ : ∃ front, Cells.fill? cells i (fun c => src[(c - i).toNat]?)
      (min (i + src.length) S - i) = some front :=
    Cells.fill?_exists_iff.mpr fun c hlo hhi => ⟨by omega, by omega, hin _ (by omega)⟩
  have hread := Cells.getElem?_fill? hfront
  by_cases hwrap : S < i + src.length
  · obtain ⟨cells', hback⟩ : ∃ cells', Cells.fill? front 0 (fun c => src[(c + (S - i : Nat)).toNat]?)
        (i + src.length - S) = some cells' :=
      Cells.fill?_exists_iff.mpr fun c hlo hhi => ⟨by omega, by omega, hin _ (by omega)⟩
    have hread' := Cells.getElem?_fill? hback
    have hcopy : copyIn cells i src = some cells' := by
      rw [copyIn, hfront, Option.bind_eq_bind, Option.bind_some, if_pos hwrap, hback]
    refine ⟨cells', hcopy, fun k hk => ?_, fun j hj hno => ?_⟩
    · by_cases hlt : i + k < S
      · rw [slot_of_lt hlt, hread', if_neg (by omega), hread, if_pos (by omega)]
        exact congrArg (src[·]?) (by omega)
      · rw [slot_of_ge (by omega) (by omega), hread', if_pos (by omega)]
        exact congrArg (src[·]?) (by omega)
    · rw [hread', if_neg, hread, if_neg]
      · intro hc
        refine hno (j - i) (by omega) ?_
        rw [slot_of_lt (by omega)]
        omega
      · intro hc
        refine hno (j + (S - i)) (by omega) ?_
        rw [slot_of_ge (by omega) (by omega)]
        omega
  · have hcopy : copyIn cells i src = some front := by
      rw [copyIn, hfront, Option.bind_eq_bind, Option.bind_some, if_neg hwrap]
    refine ⟨front, hcopy, fun k hk => ?_, fun j hj hno => ?_⟩
    · by_cases hlt : i + k < S
      · rw [slot_of_lt hlt, hread, if_pos (by omega)]
        exact congrArg (src[·]?) (by omega)
      · omega
    · rw [hread, if_neg]
      intro hc
      refine hno (j - i) (by omega) ?_
      rw [slot_of_lt (by omega)]
      omega

theorem copyIn_of_le (cells : Vector T S) {i : Nat} {src : List T} (h : i + src.length ≤ S) :
    copyIn cells i src =
      Cells.fill? cells i (fun c => src[(c - i).toNat]?) src.length := by
  have hcount : min (i + src.length) S - i = src.length := by omega
  have hfits : ¬ S < i + src.length := by omega
  simp only [copyIn, hcount, if_neg hfits]
  exact bind_pure _

/-- The cells of a copy one after the other, from the `k`-th on. -/
def writeCells (cells : Vector T S) (i k : Nat) : List T → Vector T S
  | [] => cells
  | v :: vs => writeCells (cells.setIfInBounds ((i + k) % S) v) i (k + 1) vs

theorem writeCells_concat (cells : Vector T S) (i k : Nat) (vs : List T) (v : T) :
    writeCells cells i k (vs ++ [v]) =
      (writeCells cells i k vs).setIfInBounds ((i + (k + vs.length)) % S) v := by
  induction vs generalizing cells k with
  | nil => rfl
  | cons u vs ih =>
    rw [List.cons_append, writeCells, ih, writeCells, List.length_cons]
    exact congrArg (fun m => Vector.setIfInBounds _ ((i + m) % S) v) (by omega)

theorem getElem?_writeCells (cells : Vector T S) (i : Nat) {src : List T} (hn : src.length ≤ S) :
    (∀ k < src.length, (writeCells cells i 0 src)[(i + k) % S]? = src[k]?) ∧
      ∀ j, (∀ k < src.length, j ≠ (i + k) % S) → (writeCells cells i 0 src)[j]? = cells[j]? := by
  induction src using List.reverseRecOn with
  | nil => exact ⟨fun k hk => absurd hk (Nat.not_lt_zero k), fun _ _ => rfl⟩
  | append_singleton src v ih =>
    rw [List.length_append, List.length_singleton] at hn ⊢
    obtain ⟨hin, hout⟩ := ih (by omega)
    rw [writeCells_concat, Nat.zero_add]
    refine ⟨fun k hk => ?_, fun j hj => ?_⟩
    · by_cases he : k = src.length
      · rw [he, Vector.getElem?_setIfInBounds_self_of_lt (Nat.mod_lt _ (by omega)),
          List.getElem?_concat_length]
      · have hne : (i + src.length) % S ≠ (i + k) % S := fun hh =>
          he (RingAccumulator.slot_inj (by omega) (by omega) hh.symm)
        rw [Vector.getElem?_setIfInBounds_ne hne, hin k (by omega),
          List.getElem?_append_left (by omega)]
    · rw [Vector.getElem?_setIfInBounds_ne fun hh => hj src.length (by omega) hh.symm]
      exact hout j fun k hk => hj k (by omega)

theorem copyIn_eq_writeCells (cells : Vector T S) {i : Nat} (hi : i < S) {src : List T}
    (hn : src.length ≤ S) : copyIn cells i src = some (writeCells cells i 0 src) := by
  obtain ⟨cells', hcopy, hin, hout⟩ := copyIn_eq cells src hi hn
  obtain ⟨hin', hout'⟩ := getElem?_writeCells cells i hn
  rw [hcopy]
  refine congrArg some (Vector.ext fun j hj => Option.some.inj ?_)
  rw [← Vector.getElem?_eq_getElem hj, ← Vector.getElem?_eq_getElem hj]
  by_cases hhit : ∃ k < src.length, j = (i + k) % S
  · obtain ⟨k, hk, rfl⟩ := hhit
    rw [hin k hk, hin' k hk]
  · have hmiss : ∀ k < src.length, j ≠ (i + k) % S := fun k hk he => hhit ⟨k, hk, he⟩
    rw [hout j hj hmiss, hout' j hmiss]

theorem copyOut_eq {cells : Vector T S} {i n : Nat} (hi : i < S) (hn : n ≤ S) {xs : List T}
    (hlen : xs.length = n) (hcell : ∀ k < n, cells[(i + k) % S]? = xs[k]?) :
    copyOut cells i n = some xs := by
  have hfront : Cells.gather? cells i (min (i + n) S - i) = some (xs.take (min (i + n) S - i)) := by
    refine Cells.gather?_eq_some (by rw [List.length_take]; omega) fun k hk => ?_
    rw [← Int.natCast_add, Cells.read?_natCast, List.getElem?_take_of_lt hk, ← hcell k (by omega),
      slot_of_lt (by omega)]
  rw [copyOut, hfront, Option.bind_eq_bind, Option.bind_some]
  by_cases hwrap : S < i + n
  · have hback : Cells.gather? cells 0 (i + n - S) = some (xs.drop (S - i)) := by
      refine Cells.gather?_eq_some (by rw [List.length_drop]; omega) fun k hk => ?_
      rw [Int.zero_add, Cells.read?_natCast, List.getElem?_drop, ← hcell _ (by omega),
        slot_of_ge (by omega) (by omega)]
      exact congrArg (cells[·]?) (by omega)
    have hcut : min (i + n) S - i = S - i := by omega
    rw [if_pos hwrap, hback, hcut, Option.bind_some, List.take_append_drop]
  · rw [if_neg hwrap, List.take_of_length_le (by omega)]

namespace Holds

variable {cells : Vector T S} {a : Nat} {xs : List T}

theorem nil (cells : Vector T S) (a : Nat) : Holds cells a [] :=
  ⟨Nat.zero_le S, fun k hk => absurd hk (Nat.not_lt_zero k)⟩

theorem drop (h : Holds cells a xs) {n : Nat} (hn : n ≤ xs.length) :
    Holds cells (a + n) (xs.drop n) where
  length_le := by
    have hle := h.length_le
    rw [List.length_drop]
    omega
  cell k hk := by
    rw [List.length_drop] at hk
    rw [Nat.add_assoc, h.cell _ (by omega), List.getElem?_drop]

theorem left {ys : List T} (h : Holds cells a (xs ++ ys)) : Holds cells a xs where
  length_le := by
    have hle := h.length_le
    rw [List.length_append] at hle
    omega
  cell k hk := by
    rw [h.cell k (by rw [List.length_append]; omega), List.getElem?_append_left hk]

/-- Writing at the far end leaves what is held in place. -/
theorem append (h : Holds cells a xs) {ys : List T} (hlen : xs.length + ys.length ≤ S)
    {cells' : Vector T S}
    (hnew : ∀ k < ys.length, cells'[(a + xs.length + k) % S]? = ys[k]?)
    (hold : ∀ j < S, (∀ k < ys.length, j ≠ (a + xs.length + k) % S) → cells'[j]? = cells[j]?) :
    Holds cells' a (xs ++ ys) where
  length_le := by rwa [List.length_append]
  cell k hk := by
    rw [List.length_append] at hk
    by_cases hxs : k < xs.length
    · rw [List.getElem?_append_left hxs, ← h.cell k hxs]
      refine hold _ (Nat.mod_lt _ (by omega)) fun m hm he => ?_
      rw [Nat.add_assoc] at he
      have hkm := RingAccumulator.slot_inj (by omega) (by omega) he
      omega
    · rw [List.getElem?_append_right (by omega), ← hnew (k - xs.length) (by omega)]
      exact congrArg (fun p => cells'[p % S]?) (by omega)

theorem write (h : Holds cells a xs) (hlen : xs.length < S) (v : T) :
    Holds (cells.setIfInBounds ((a + xs.length) % S) v) a (xs ++ [v]) := by
  have hone : ∀ k < [v].length, k = 0 := fun k hk => Nat.lt_one_iff.mp hk
  have hroom : xs.length + [v].length ≤ S := hlen
  refine h.append hroom (fun k hk => ?_) fun j _ hother => ?_
  · obtain rfl := hone k hk
    exact Vector.getElem?_setIfInBounds_self_of_lt (Nat.mod_lt _ (by omega))
  · exact Vector.getElem?_setIfInBounds_ne fun he => hother 0 Nat.one_pos he.symm

theorem copyIn (h : Holds cells a xs) {ys : List T} (hlen : xs.length + ys.length ≤ S) (hS : 0 < S) :
    ∃ cells', RingWindow.copyIn cells ((a + xs.length) % S) ys = some cells' ∧
      Holds cells' a (xs ++ ys) := by
  obtain ⟨cells', hcopy, hnew, hold⟩ :=
    copyIn_eq cells ys (Nat.mod_lt (a + xs.length) hS) (by omega)
  simp only [slot_add] at hnew hold
  exact ⟨cells', hcopy, h.append hlen hnew hold⟩

theorem copyOut (h : Holds cells a xs) {n : Nat} (hn : n ≤ xs.length) (hS : 0 < S) :
    RingWindow.copyOut cells (a % S) n = some (xs.take n) := by
  have hle := h.length_le
  refine copyOut_eq (Nat.mod_lt a hS) (by omega) (by rw [List.length_take]; omega) fun k hk => ?_
  rw [slot_add, h.cell k (by omega), List.getElem?_take_of_lt hk]

/-- A full ring takes what comes in the place of what is oldest. -/
theorem slide (h : Holds cells a xs) (hfull : xs.length = S) {ys : List T} (hys : ys.length ≤ S)
    (hS : 0 < S) :
    ∃ cells', RingWindow.copyIn cells (a % S) ys = some cells' ∧
      Holds cells' (a + ys.length) ((xs ++ ys).drop ys.length) := by
  have hlen : (xs.drop ys.length).length = S - ys.length := by rw [List.length_drop, hfull]
  have hroom : (xs.drop ys.length).length + ys.length ≤ S := by omega
  obtain ⟨cells', hcopy, hcells'⟩ := (h.drop (hfull ▸ hys)).copyIn hroom hS
  have hpos : a + ys.length + (xs.drop ys.length).length = a + S := by omega
  rw [hpos, Nat.add_mod_right] at hcopy
  rw [List.drop_append_of_le_length (hfull ▸ hys)]
  exact ⟨cells', hcopy, hcells'⟩

theorem slide_one (h : Holds cells a xs) (hfull : xs.length = S) (hS : 0 < S) (v : T) :
    ∃ cells', Cells.write? cells (a % S : Nat) v = some cells' ∧
      Holds cells' (a + 1) ((xs ++ [v]).drop 1) := by
  have hone : [v].length ≤ S := hS
  obtain ⟨cells', hcopy, hcells'⟩ := h.slide hfull hone hS
  rw [copyIn_of_le _ (Nat.mod_lt a hS)] at hcopy
  obtain ⟨u, hu, hlo, hhi, hfill⟩ := Cells.fill?_succ_eq_some.mp hcopy
  rw [Int.sub_self] at hu
  obtain rfl : v = u := Option.some.inj hu
  refine ⟨cells', ?_, hcells'⟩
  rw [Cells.write?, if_pos ⟨hlo, hhi⟩]
  exact hfill

/-- The way back from the next cell to be written. -/
theorem recent (h : Holds cells a xs) (hfull : xs.length = S) {i : Nat} (hi : i < S) :
    Cells.read? cells (((a % S : Nat) - 1 - i + S : Int).tmod S) = xs[S - 1 - i]? := by
  have hback : ((a % S : Nat) - 1 - i + S : Int) = (a % S + (S - 1 - i) : Nat) := by omega
  rw [hback, ← Int.ofNat_tmod, Cells.read?_natCast, slot_add]
  exact h.cell _ (by omega)

/-- The way back from the newest cell. -/
theorem recent_from (h : Holds cells (a + 1) xs) (hfull : xs.length = S) {i : Nat} (hi : i < S) :
    Cells.read? cells (((a % S : Nat) - i + S : Int).tmod S) = xs[S - 1 - i]? := by
  have hback : ((a % S : Nat) - i + S : Int) = (a % S + (S - i) : Nat) := by omega
  have hahead : a + (S - i) = a + 1 + (S - 1 - i) := by omega
  rw [hback, ← Int.ofNat_tmod, Cells.read?_natCast, slot_add, hahead]
  exact h.cell _ (by omega)

end Holds

end RingWindow
