import Mathlib.Data.List.Infix
import Mathlib.Data.List.Nodup

/-! A table in insertion order whose entries have distinct keys. The first
entry for a key stays, later ones for the same key are dropped. -/

namespace FirstWins

variable {α κ : Type*} [DecidableEq κ] {key : α → κ} {table : List α} {a : α}

def insert (key : α → κ) (table : List α) (a : α) : List α :=
  if table.any fun b => key b == key a then table else table ++ [a]

theorem insert_of_taken (h : ∃ b ∈ table, key b = key a) : insert key table a = table := by
  have hany : (table.any fun b => key b == key a) = true := by simpa using h
  rw [insert, if_pos hany]

theorem insert_of_free (h : ¬ ∃ b ∈ table, key b = key a) :
    insert key table a = table ++ [a] := by
  have hany : ¬ (table.any fun b => key b == key a) = true := by simpa using h
  rw [insert, if_neg hany]

theorem insert_eq_self_iff : insert key table a = table ↔ ∃ b ∈ table, key b = key a := by
  refine ⟨fun h => ?_, insert_of_taken⟩
  by_contra hfree
  rw [insert_of_free hfree] at h
  simp at h

theorem prefix_insert (key : α → κ) (table : List α) (a : α) : table <+: insert key table a := by
  by_cases h : ∃ b ∈ table, key b = key a
  · rw [insert_of_taken h]
  · rw [insert_of_free h]
    exact List.prefix_append table [a]

theorem nodup_insert (h : (table.map key).Nodup) (a : α) :
    ((insert key table a).map key).Nodup := by
  by_cases ht : ∃ b ∈ table, key b = key a
  · rwa [insert_of_taken ht]
  · rw [insert_of_free ht, List.map_append, List.map_singleton, ← List.concat_eq_append]
    refine h.concat fun hm => ht ?_
    exact List.mem_map.mp hm

theorem insert_sublist {as : List α} (h : table.Sublist as) (a : α) :
    (insert key table a).Sublist (as ++ [a]) := by
  by_cases ht : ∃ b ∈ table, key b = key a
  · rw [insert_of_taken ht]
    exact h.trans (List.sublist_append_left as [a])
  · rw [insert_of_free ht]
    exact h.append (List.Sublist.refl [a])

/-- The table after entries were inserted one by one. -/
def build (key : α → κ) (as : List α) : List α := as.foldl (insert key) []

theorem build_concat (key : α → κ) (as : List α) (a : α) :
    build key (as ++ [a]) = insert key (build key as) a := List.foldl_concat ..

theorem nodup_build (as : List α) : ((build key as).map key).Nodup := by
  induction as using List.reverseRecOn with
  | nil => exact List.nodup_nil
  | append_singleton as a ih =>
    rw [build_concat]
    exact nodup_insert ih a

theorem build_sublist (as : List α) : (build key as).Sublist as := by
  induction as using List.reverseRecOn with
  | nil => exact List.Sublist.refl []
  | append_singleton as a ih =>
    rw [build_concat]
    exact insert_sublist ih a

end FirstWins
