import Mathlib.Data.Nat.Notation
import Mathlib.Tactic.SplitIfs

/-! Fixed-size arrays accessed by a plain index. Guarded accesses skip an
index out of range; unguarded ones fail on it, which is how an access outside
the array shows up in a model. -/

namespace Cells

variable {α : Type*} {n : Nat}

def modifyAt (xs : Vector α n) (i : Nat) (f : α → α) : Vector α n :=
  if h : i < n then xs.set i (f xs[i]) else xs

/-- Guarded writes of `vs` to consecutive cells from `i`. -/
def writeFrom (xs : Vector α n) (i : Nat) : List α → Vector α n
  | [] => xs
  | v :: vs => writeFrom (xs.setIfInBounds i v) (i + 1) vs

def read? (xs : Vector α n) (i : Int) : Option α := if 0 ≤ i then xs[i.toNat]? else none

def write? (xs : Vector α n) (i : Int) (v : α) : Option (Vector α n) :=
  if 0 ≤ i ∧ i < n then some (xs.setIfInBounds i.toNat v) else none

/-- The loop `for (i = lo; i < lo + count; i++) xs[i] = f(i)`. -/
def fill? (xs : Vector α n) (lo : Int) (f : Int → Option α) : Nat → Option (Vector α n)
  | 0 => some xs
  | count + 1 => do
    let v ← f lo
    let ys ← write? xs lo v
    fill? ys (lo + 1) f count

def gather? (xs : Vector α n) (lo : Int) : Nat → Option (List α)
  | 0 => some []
  | count + 1 => do
    let v ← read? xs lo
    let vs ← gather? xs (lo + 1) count
    some (v :: vs)

/-- `count` cells from `src` on go to the cells from `dst` on, all read before the first write. -/
def copy? (xs : Vector α n) (dst src : Int) (count : Nat) : Option (Vector α n) := do
  let vs ← gather? xs src count
  fill? xs dst (fun i => vs[(i - dst).toNat]?) count

theorem getElem?_modifyAt (xs : Vector α n) (i j : Nat) (f : α → α) :
    (modifyAt xs i f)[j]? = if i = j then xs[j]?.map f else xs[j]? := by
  unfold modifyAt
  split_ifs with h he he
  · subst he
    simp [h]
  · simp [he]
  · subst he
    simp [h]
  · rfl

/-! Reading a cell of an array that was written, with a default beyond its end. -/

theorem getD_replicate (i : Nat) (a : α) : (Vector.replicate n a)[i]?.getD a = a := by
  rw [Vector.getElem?_replicate]
  split_ifs <;> rfl

theorem getD_set (xs : Vector α n) (i j : Nat) (a d : α) :
    (xs.setIfInBounds i a)[j]?.getD d = if i = j ∧ j < n then a else xs[j]?.getD d := by
  rw [Vector.getElem?_setIfInBounds]
  by_cases hij : i = j
  · subst hij
    by_cases hi : i < n
    · simp [hi]
    · simp [hi]
  · simp [hij]

theorem getD_modifyAt (xs : Vector α n) (i j : Nat) (f : α → α) (d : α) :
    (modifyAt xs i f)[j]?.getD d =
      if i = j ∧ j < n then f (xs[j]?.getD d) else xs[j]?.getD d := by
  rw [getElem?_modifyAt]
  by_cases hij : i = j
  · subst hij
    by_cases hi : i < n
    · simp [hi]
    · simp [hi]
  · simp [hij]

theorem getElem?_writeFrom (xs : Vector α n) (vs : List α) (i j : Nat) :
    (writeFrom xs i vs)[j]? =
      if i ≤ j ∧ j < i + vs.length ∧ j < n then vs[j - i]? else xs[j]? := by
  induction vs generalizing xs i with
  | nil => simp [writeFrom]; omega
  | cons v vs ih =>
    rw [writeFrom, ih, Vector.getElem?_setIfInBounds]
    by_cases hij : i = j
    · subst hij
      by_cases hn : i < n
      · have hno : ¬ (i + 1 ≤ i ∧ i < i + 1 + vs.length ∧ i < n) := by omega
        rw [if_neg hno]
        simp [hn]
      · simp [hn]
    · by_cases hc : i + 1 ≤ j ∧ j < i + 1 + vs.length ∧ j < n
      · have hc' : i ≤ j ∧ j < i + (v :: vs).length ∧ j < n := by
          simp only [List.length_cons]
          omega
        have hj : j - i = j - (i + 1) + 1 := by omega
        rw [if_pos hc, if_pos hc', hj, List.getElem?_cons_succ]
      · have hc' : ¬ (i ≤ j ∧ j < i + (v :: vs).length ∧ j < n) := by
          simp only [List.length_cons]
          omega
        rw [if_neg hc, if_neg hij, if_neg hc']

theorem write?_eq_some {xs ys : Vector α n} {i : Int} {v : α} (h : write? xs i v = some ys) :
    0 ≤ i ∧ i < n ∧ ys = xs.setIfInBounds i.toNat v := by
  unfold write? at h
  split_ifs at h with hi
  exact ⟨hi.1, hi.2, (Option.some.inj h).symm⟩

theorem write?_natCast (xs : Vector α n) {i : Nat} (hi : i < n) (v : α) :
    write? xs i v = some (xs.setIfInBounds i v) :=
  if_pos ⟨Int.natCast_nonneg i, Int.ofNat_lt.mpr hi⟩

theorem read?_exists_iff {xs : Vector α n} {i : Int} :
    (∃ v, read? xs i = some v) ↔ 0 ≤ i ∧ i < n := by
  unfold read?
  split_ifs with h
  · constructor
    · rintro ⟨v, hv⟩
      obtain ⟨hi, _⟩ := Vector.getElem?_eq_some_iff.mp hv
      omega
    · intro hi
      have hlt : i.toNat < n := by omega
      exact ⟨xs[i.toNat], Vector.getElem?_eq_getElem hlt⟩
  · refine iff_of_false ?_ fun hi => h hi.1
    rintro ⟨v, hv⟩
    cases hv

theorem gather?_exists_iff {xs : Vector α n} {lo : Int} {count : Nat} :
    (∃ vs, gather? xs lo count = some vs) ↔ ∀ i, lo ≤ i → i < lo + count → 0 ≤ i ∧ i < n := by
  induction count generalizing lo with
  | zero =>
    refine iff_of_true ⟨[], rfl⟩ fun i hlo hhi => ?_
    omega
  | succ count ih =>
    simp only [gather?, Option.bind_eq_bind, Option.bind_eq_some_iff]
    constructor
    · rintro ⟨_, v, hv, vs, hvs, _⟩ i hlo hhi
      by_cases he : i = lo
      · subst he
        exact read?_exists_iff.mp ⟨v, hv⟩
      · exact ih.mp ⟨vs, hvs⟩ i (by omega) (by omega)
    · intro h
      obtain ⟨v, hv⟩ := read?_exists_iff.mpr (h lo (by omega) (by omega))
      have hrest : ∀ i, lo + 1 ≤ i → i < lo + 1 + count → 0 ≤ i ∧ i < n :=
        fun i hlo hhi => h i (by omega) (by omega)
      obtain ⟨vs, hvs⟩ := ih.mpr hrest
      exact ⟨v :: vs, v, hv, vs, hvs, rfl⟩

theorem read?_natCast (xs : Vector α n) (i : Nat) : read? xs i = xs[i]? :=
  if_pos (Int.natCast_nonneg i)

theorem gather?_eq_some {xs : Vector α n} {lo : Int} {count : Nat} {vs : List α}
    (hlen : vs.length = count) (h : ∀ k < count, read? xs (lo + k) = vs[k]?) :
    gather? xs lo count = some vs := by
  induction vs generalizing lo count with
  | nil =>
    subst hlen
    rfl
  | cons v vs ih =>
    obtain rfl : count = vs.length + 1 := hlen.symm
    have hfirst : read? xs lo = some v := by simpa using h 0 (Nat.succ_pos _)
    have hrest : gather? xs (lo + 1) vs.length = some vs := by
      refine ih rfl fun k hk => ?_
      have hnext : lo + 1 + k = lo + (k + 1 : Nat) := by omega
      rw [hnext, h (k + 1) (by omega), List.getElem?_cons_succ]
    simp [gather?, hfirst, hrest]

theorem fill?_succ_eq_some {xs ys : Vector α n} {lo : Int} {f : Int → Option α} {count : Nat} :
    fill? xs lo f (count + 1) = some ys ↔
      ∃ v, f lo = some v ∧ 0 ≤ lo ∧ lo < n ∧
        fill? (xs.setIfInBounds lo.toNat v) (lo + 1) f count = some ys := by
  simp only [fill?, Option.bind_eq_bind, Option.bind_eq_some_iff]
  constructor
  · rintro ⟨v, hv, zs, hz, hy⟩
    obtain ⟨hlo, hhi, rfl⟩ := write?_eq_some hz
    exact ⟨v, hv, hlo, hhi, hy⟩
  · rintro ⟨v, hv, hlo, hhi, hy⟩
    exact ⟨v, hv, _, by rw [write?, if_pos ⟨hlo, hhi⟩], hy⟩

theorem fill?_exists_iff {xs : Vector α n} {lo : Int} {f : Int → Option α} {count : Nat} :
    (∃ ys, fill? xs lo f count = some ys) ↔
      ∀ i, lo ≤ i → i < lo + count → 0 ≤ i ∧ i < n ∧ ∃ v, f i = some v := by
  induction count generalizing xs lo with
  | zero =>
    refine iff_of_true ⟨xs, rfl⟩ fun i hlo hhi => ?_
    omega
  | succ count ih =>
    constructor
    · rintro ⟨ys, hy⟩ i hlo hhi
      obtain ⟨v, hv, h0, hn, hy⟩ := fill?_succ_eq_some.mp hy
      by_cases he : i = lo
      · subst he
        exact ⟨h0, hn, v, hv⟩
      · exact ih.mp ⟨ys, hy⟩ i (by omega) (by omega)
    · intro h
      obtain ⟨h0, hn, v, hv⟩ := h lo (by omega) (by omega)
      have hrest : ∀ i, lo + 1 ≤ i → i < lo + 1 + count → 0 ≤ i ∧ i < n ∧ ∃ v, f i = some v :=
        fun i hlo hhi => h i (by omega) (by omega)
      obtain ⟨ys, hy⟩ := ih.mpr hrest
      exact ⟨ys, fill?_succ_eq_some.mpr ⟨v, hv, h0, hn, hy⟩⟩

theorem getElem?_fill? {xs ys : Vector α n} {lo : Int} {f : Int → Option α} {count : Nat}
    (h : fill? xs lo f count = some ys) (j : Nat) :
    ys[j]? = if lo ≤ j ∧ (j : Int) < lo + count then f j else xs[j]? := by
  induction count generalizing xs lo with
  | zero =>
    obtain rfl : xs = ys := Option.some.inj h
    rw [if_neg (by omega)]
  | succ count ih =>
    obtain ⟨v, hv, h0, hn, hy⟩ := fill?_succ_eq_some.mp h
    rw [ih hy, Vector.getElem?_setIfInBounds]
    by_cases hj : lo.toNat = j
    · have hlo : lo = j := by omega
      subst hlo
      rw [if_neg (by omega), if_pos hj, if_pos (by omega), if_pos (by omega), hv]
    · rw [if_neg hj]
      by_cases hc : lo + 1 ≤ j ∧ (j : Int) < lo + 1 + count
      · rw [if_pos hc, if_pos (by omega)]
      · rw [if_neg hc, if_neg (by omega)]

theorem gather?_eq_take_drop {xs : Vector α n} {lo count : Nat} (h : lo + count ≤ n) :
    gather? xs lo count = some ((xs.toList.drop lo).take count) := by
  refine gather?_eq_some ?_ fun k hk => ?_
  · rw [List.length_take, List.length_drop, Vector.length_toList]
    omega
  · rw [← Int.natCast_add, read?_natCast, List.getElem?_take_of_lt hk, List.getElem?_drop,
      Vector.getElem?_toList]

theorem copy?_eq {xs : Vector α n} {dst src count : Nat} (hdst : dst + count ≤ n)
    (hsrc : src + count ≤ n) :
    ∃ ys, copy? xs dst src count = some ys ∧
      ∀ j, ys[j]? = if dst ≤ j ∧ j < dst + count then xs[j - dst + src]? else xs[j]? := by
  have hread (k : Nat) (hk : k < count) : ((xs.toList.drop src).take count)[k]? = xs[src + k]? := by
    rw [List.getElem?_take_of_lt hk, List.getElem?_drop, Vector.getElem?_toList]
  obtain ⟨ys, hy⟩ : ∃ ys, fill? xs dst
      (fun i => ((xs.toList.drop src).take count)[(i - dst).toNat]?) count = some ys := by
    refine fill?_exists_iff.mpr fun i hlo hhi => ⟨by omega, by omega, ?_⟩
    have hlt : src + (i - dst).toNat < n := by omega
    exact ⟨xs[src + (i - dst).toNat], by
      rw [hread _ (by omega), Vector.getElem?_eq_getElem hlt]⟩
  refine ⟨ys, by rw [copy?, gather?_eq_take_drop hsrc]; exact hy, fun j => ?_⟩
  rw [getElem?_fill? hy]
  by_cases hj : dst ≤ j ∧ j < dst + count
  · rw [if_pos (by omega), if_pos hj, hread _ (by omega)]
    exact congrArg (xs[·]?) (by omega)
  · rw [if_neg (by omega), if_neg hj]

end Cells
