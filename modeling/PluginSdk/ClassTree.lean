import Mathlib.Logic.Basic

/-! Single inheritance. A member is found in the nearest class that declares
it, starting from the class itself and walking towards the root. The same
walk ranks the overloads that take one of the bases by reference. -/

structure ClassTree (C : Type*) where
  base : C → Option C
  depth : C → Nat
  depth_base : ∀ {c b : C}, base c = some b → depth b < depth c

namespace ClassTree

variable {C : Type*} {α : Type*} (T : ClassTree C)

def search (declares : C → Option α) : Nat → C → Option α
  | 0, c => declares c
  | n + 1, c => (declares c).or ((T.base c).bind (search declares n))

/-- The declaration of the nearest class, the class itself first. -/
def lookup (declares : C → Option α) (c : C) : Option α := T.search declares (T.depth c) c

def derivedFrom [DecidableEq C] (c b : C) : Bool :=
  (T.lookup (fun d => if d = b then some () else none) c).isSome

theorem search_root (declares : C → Option α) {c : C} (n : Nat) (h : T.base c = none) :
    T.search declares n c = declares c := by
  cases n <;> simp [search, h]

theorem search_stable (declares : C → Option α) {n m : Nat} {c : C}
    (hn : T.depth c ≤ n) (hm : T.depth c ≤ m) :
    T.search declares n c = T.search declares m c := by
  induction n generalizing c m with
  | zero =>
    cases hb : T.base c with
    | none => rw [T.search_root declares _ hb, T.search_root declares _ hb]
    | some b => have := T.depth_base hb; omega
  | succ n ih =>
    cases hb : T.base c with
    | none => rw [T.search_root declares _ hb, T.search_root declares _ hb]
    | some b =>
      have hd := T.depth_base hb
      obtain ⟨m, rfl⟩ : ∃ k, m = k + 1 := ⟨m - 1, by omega⟩
      simp only [search, hb, Option.bind_some, ih (c := b) (m := m) (by omega) (by omega)]

theorem lookup_eq (declares : C → Option α) (c : C) :
    T.lookup declares c = (declares c).or ((T.base c).bind (T.lookup declares)) := by
  cases hb : T.base c with
  | none => simp [lookup, T.search_root declares _ hb]
  | some b =>
    have hd := T.depth_base hb
    rw [lookup, T.search_stable declares (Nat.le_refl _) (Nat.le_succ _)]
    simp only [search, hb, Option.bind_some]
    rw [lookup, T.search_stable declares (by omega) (Nat.le_refl _)]

theorem lookup_forall {P : α → Prop} {declares : C → Option α}
    (h : ∀ c a, declares c = some a → P a) {c : C} {a : α} (ha : T.lookup declares c = some a) :
    P a := by
  induction hn : T.depth c using Nat.strongRecOn generalizing c with
  | ind n ih =>
    rw [lookup_eq] at ha
    rcases Option.or_eq_some_iff.mp ha with hd | ⟨_, hb⟩
    · exact h c a hd
    · obtain ⟨b, hb, hl⟩ := Option.bind_eq_some_iff.mp hb
      exact ih (T.depth b) (hn ▸ T.depth_base hb) hl rfl

end ClassTree
