import Mathlib.Data.List.Sort
import Mathlib.Order.RelClasses

/-! Sorting with a comparator. A routine is only bound to sort when its
comparator is a strict weak order; the result is then fixed up to the order of
entries that compare equal. -/

namespace ComparatorSort

variable {α κ : Type*} [LinearOrder κ]

def StrictWeak (lt : α → α → Bool) : Prop := IsStrictWeakOrder α fun a b => lt a b = true

/-- `sort` returns some sorted permutation of its input. -/
structure Sorts (sort : (α → α → Bool) → List α → List α) : Prop where
  perm : ∀ lt, StrictWeak lt → ∀ xs, (sort lt xs).Perm xs
  sorted : ∀ lt, StrictWeak lt → ∀ xs, (sort lt xs).Pairwise fun a b => lt b a = false

theorem strictWeak_of_key {lt : α → α → Bool} {key : α → κ}
    (h : ∀ a b, lt a b = true ↔ key a < key b) : StrictWeak lt := by
  refine { irrefl := fun a => ?_, trans := fun a b c => ?_, incomp_trans := fun a b c => ?_ }
  · exact fun hlt => lt_irrefl (key a) ((h a a).mp hlt)
  · simp only [h]
    exact lt_trans
  · simp only [h, not_lt]
    rintro ⟨hba, hab⟩ ⟨hcb, hbc⟩
    exact ⟨hcb.trans hba, hab.trans hbc⟩

theorem StrictWeak.trans {lt : α → α → Bool} (h : StrictWeak lt) {a b c : α}
    (hab : lt a b = true) (hbc : lt b c = true) : lt a c = true :=
  h.toIsStrictOrder.toIsTrans.trans a b c hab hbc

/-- Of two entries in order and a third, one neighbouring pair is in order. -/
theorem StrictWeak.conn {lt : α → α → Bool} (h : StrictWeak lt) {a b c : α}
    (hac : lt a c = true) : lt a b = true ∨ lt b c = true := by
  by_contra hne
  have hab : lt a b ≠ true := fun hh => hne (.inl hh)
  have hbc : lt b c ≠ true := fun hh => hne (.inr hh)
  have hba : lt b a ≠ true := fun hh => hbc (h.trans hh hac)
  have hcb : lt c b ≠ true := fun hh => hab (h.trans hac hh)
  exact (h.incomp_trans a b c ⟨hab, hba⟩ ⟨hbc, hcb⟩).1 hac

theorem Sorts.key_le {sort : (α → α → Bool) → List α → List α} (hsort : Sorts sort)
    {lt : α → α → Bool} {key : α → κ} (h : ∀ a b, lt a b = true ↔ key a < key b) (xs : List α) :
    (sort lt xs).Pairwise fun a b => key a ≤ key b := by
  refine (hsort.sorted lt (strictWeak_of_key h) xs).imp fun {a b} hba => ?_
  exact not_lt.mp fun hlt => Bool.false_ne_true (hba.symm.trans ((h b a).mpr hlt))

/-- With distinct keys the input order does not show in the result. -/
theorem Sorts.eq_of_perm {sort : (α → α → Bool) → List α → List α} (hsort : Sorts sort)
    {lt : α → α → Bool} {key : α → κ} (h : ∀ a b, lt a b = true ↔ key a < key b)
    {xs ys : List α} (hperm : xs.Perm ys) (hkeys : (xs.map key).Nodup) :
    sort lt xs = sort lt ys := by
  have hxs := hsort.perm lt (strictWeak_of_key h) xs
  have hys := hsort.perm lt (strictWeak_of_key h) ys
  have hp : (sort lt xs).Perm (sort lt ys) := hxs.trans (hperm.trans hys.symm)
  refine hp.eq_of_pairwise (fun a b ha hb hab hba => ?_) (hsort.key_le h xs) (hsort.key_le h ys)
  have hb' : b ∈ xs := hperm.symm.mem_iff.mp (hys.mem_iff.mp hb)
  exact List.inj_on_of_nodup_map hkeys (hxs.mem_iff.mp ha) hb' (le_antisymm hab hba)

theorem mergeSort_sorts : Sorts fun (lt : α → α → Bool) xs => xs.mergeSort fun a b => !lt b a := by
  refine ⟨fun lt _ xs => List.mergeSort_perm xs _, fun lt hlt xs => ?_⟩
  refine (List.pairwise_mergeSort (fun a b c hab hbc => ?_) (fun a b => ?_) xs).imp ?_
  · simp only [Bool.not_eq_true'] at hab hbc ⊢
    by_contra hca
    rcases hlt.conn (b := b) (Bool.not_eq_false _ ▸ hca) with hcb | hba
    · exact Bool.false_ne_true (hbc.symm.trans hcb)
    · exact Bool.false_ne_true (hab.symm.trans hba)
  · cases hba : lt b a with
    | false => rfl
    | true =>
      cases hab : lt a b with
      | false => rfl
      | true => exact absurd (hlt.trans hab hba) (hlt.toIsStrictOrder.toIrrefl.irrefl a)
  · intro a b hab
    simpa using hab

end ComparatorSort
