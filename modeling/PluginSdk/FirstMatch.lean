import Mathlib.Data.List.Basic

/-! A linear search that keeps a running value. It returns the value that the
entries before the first match have accumulated. -/

namespace FirstMatch

variable {α σ : Type*} {p : α → Bool} {next : σ → α → σ}

def search (p : α → Bool) (next : σ → α → σ) (s : σ) : List α → Option σ
  | [] => none
  | a :: as => if p a then some s else search p next (next s a) as

theorem search_eq_none {as : List α} (h : ∀ a ∈ as, p a = false) (s : σ) :
    search p next s as = none := by
  induction as generalizing s with
  | nil => rfl
  | cons a as ih =>
    have hh := ih fun b hb => h b (List.mem_cons_of_mem a hb)
    rw [search, h a List.mem_cons_self, hh]
    rfl

theorem search_eq_some {as : List α} {a : α} {i : Nat} (ha : as[i]? = some a) (hp : p a = true)
    (hbefore : ∀ j b, j < i → as[j]? = some b → p b = false) (s : σ) :
    search p next s as = some ((as.take i).foldl next s) := by
  induction as generalizing s i with
  | nil => simp at ha
  | cons c as ih =>
    cases i with
    | zero =>
      obtain rfl : c = a := by simpa using ha
      rw [search, if_pos hp]
      rfl
    | succ i =>
      have hc : p c = false := hbefore 0 c (Nat.succ_pos i) rfl
      have hrest : ∀ j b, j < i → as[j]? = some b → p b = false :=
        fun j b hj hb => hbefore (j + 1) b (Nat.succ_lt_succ hj) hb
      rw [search, hc, if_neg (by decide), ih ha hrest, List.take_succ_cons, List.foldl_cons]

end FirstMatch
