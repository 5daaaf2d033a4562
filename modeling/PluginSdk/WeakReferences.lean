import Mathlib.Data.Finset.Basic
import Mathlib.Data.Finset.Card
import Mathlib.Logic.Function.Basic
import PluginSdk.PartialRun

/-! References that do not keep what they refer to alive, and that refer to nothing
once it is deleted. Names of deleted objects and of destroyed references may be
used again. -/

namespace WeakReferences

variable {O P : Type*} [DecidableEq P]

inductive Op (O P : Type*)
  | create (o : O)
  | delete (o : O)
  | construct (p : P) (ptr : Option O)
  | copyConstruct (p q : P)
  | assign (p q : P)
  | set (p : P) (ptr : Option O)
  | destroy (p : P)

structure Refs (O P : Type*) where
  objects : Finset O
  pointers : Finset P
  target : P → Option O

namespace Refs

def init : Refs O P := ⟨∅, ∅, fun _ => none⟩

/-- Nothing refers to a deleted object, and what is no reference refers to nothing. -/
structure Valid (r : Refs O P) : Prop where
  target_mem : ∀ p o, r.target p = some o → o ∈ r.objects
  pointer_mem : ∀ p o, r.target p = some o → p ∈ r.pointers

theorem update_cases {α : Type*} {f : P → Option α} {p p' : P} {v : Option α} {a : α}
    (h : Function.update f p v p' = some a) : p' = p ∧ v = some a ∨ p' ≠ p ∧ f p' = some a := by
  by_cases he : p' = p
  · subst he
    rw [Function.update_self] at h
    exact Or.inl ⟨rfl, h⟩
  · rw [Function.update_of_ne he] at h
    exact Or.inr ⟨he, h⟩

theorem Valid.update {r : Refs O P} (h : Valid r) {p : P} {ptr : Option O} {pointers : Finset P}
    (hsub : r.pointers ⊆ pointers) (hp : p ∈ pointers) (hptr : ∀ o ∈ ptr, o ∈ r.objects) :
    Valid { r with pointers, target := Function.update r.target p ptr } := by
  constructor
  · intro p' o ht
    rcases update_cases ht with ⟨-, ho⟩ | ⟨-, ho⟩
    · exact hptr o ho
    · exact h.target_mem p' o ho
  · intro p' o ht
    rcases update_cases ht with ⟨rfl, -⟩ | ⟨-, ho⟩
    · exact hp
    · exact hsub (h.pointer_mem p' o ho)

variable [DecidableEq O]

def next (r : Refs O P) : Op O P → Refs O P
  | .create o => { r with objects := insert o r.objects }
  | .delete o =>
    { r with
      objects := r.objects.erase o
      target := fun p => if r.target p = some o then none else r.target p }
  | .construct p ptr =>
    { r with pointers := insert p r.pointers, target := Function.update r.target p ptr }
  | .copyConstruct p q =>
    { r with pointers := insert p r.pointers, target := Function.update r.target p (r.target q) }
  | .assign p q => { r with target := Function.update r.target p (r.target q) }
  | .set p ptr => { r with target := Function.update r.target p ptr }
  | .destroy p =>
    { r with pointers := r.pointers.erase p, target := Function.update r.target p none }

def run (r : Refs O P) (ops : List (Op O P)) : Refs O P := ops.foldl next r

/-- New names are not in use, all others are. -/
def Admits (r : Refs O P) : Op O P → Prop
  | .create o => o ∉ r.objects
  | .delete o => o ∈ r.objects
  | .construct p ptr => p ∉ r.pointers ∧ ∀ o ∈ ptr, o ∈ r.objects
  | .copyConstruct p q => p ∉ r.pointers ∧ q ∈ r.pointers
  | .assign p q => p ∈ r.pointers ∧ q ∈ r.pointers
  | .set p ptr => p ∈ r.pointers ∧ ∀ o ∈ ptr, o ∈ r.objects
  | .destroy p => p ∈ r.pointers

instance (r : Refs O P) (op : Op O P) : Decidable (Admits r op) :=
  match op with
  | .create o => inferInstanceAs (Decidable (o ∉ r.objects))
  | .delete o => inferInstanceAs (Decidable (o ∈ r.objects))
  | .construct p ptr => inferInstanceAs (Decidable (p ∉ r.pointers ∧ ∀ o ∈ ptr, o ∈ r.objects))
  | .copyConstruct p q => inferInstanceAs (Decidable (p ∉ r.pointers ∧ q ∈ r.pointers))
  | .assign p q => inferInstanceAs (Decidable (p ∈ r.pointers ∧ q ∈ r.pointers))
  | .set p ptr => inferInstanceAs (Decidable (p ∈ r.pointers ∧ ∀ o ∈ ptr, o ∈ r.objects))
  | .destroy p => inferInstanceAs (Decidable (p ∈ r.pointers))

def Admitted (ops : List (Op O P)) : Prop :=
  PartialRun.Follows (fun before op => Admits (init.run before) op) ops

/-- The references to an object. -/
def holders (r : Refs O P) (o : O) : Finset P := r.pointers.filter fun p => r.target p = some o

theorem run_concat (r : Refs O P) (ops : List (Op O P)) (op : Op O P) :
    r.run (ops ++ [op]) = (r.run ops).next op := by
  rw [run, List.foldl_append]
  rfl

theorem Valid.next {r : Refs O P} (h : Valid r) {op : Op O P} (hop : Admits r op) :
    Valid (r.next op) := by
  cases op with
  | create o =>
    exact ⟨fun p o' ht => Finset.mem_insert_of_mem (h.target_mem p o' ht), h.pointer_mem⟩
  | delete o =>
    constructor
    · intro p o' ht
      by_cases he : r.target p = some o
      · simp [Refs.next, he] at ht
      · simp only [Refs.next, if_neg he] at ht ⊢
        refine Finset.mem_erase.mpr ⟨fun hoo => he (hoo ▸ ht), h.target_mem p o' ht⟩
    · intro p o' ht
      by_cases he : r.target p = some o
      · simp [Refs.next, he] at ht
      · simp only [Refs.next, if_neg he] at ht
        exact h.pointer_mem p o' ht
  | construct p ptr =>
    exact h.update (Finset.subset_insert p _) (Finset.mem_insert_self p _) hop.2
  | copyConstruct p q =>
    exact h.update (Finset.subset_insert p _) (Finset.mem_insert_self p _) (h.target_mem q)
  | assign p q => exact h.update (Finset.Subset.refl _) hop.1 (h.target_mem q)
  | set p ptr => exact h.update (Finset.Subset.refl _) hop.1 hop.2
  | destroy p =>
    have hother {p' : P} {o : O} (ht : Function.update r.target p none p' = some o) :
        p' ≠ p ∧ r.target p' = some o := by
      rcases update_cases ht with ⟨-, ho⟩ | ho
      · cases ho
      · exact ho
    exact ⟨fun p' o ht => h.target_mem p' o (hother ht).2, fun p' o ht =>
      Finset.mem_erase.mpr ⟨(hother ht).1, h.pointer_mem p' o (hother ht).2⟩⟩

theorem valid_run {ops : List (Op O P)} (h : Admitted ops) : Valid (init.run ops) := by
  induction ops using List.reverseRecOn with
  | nil => exact ⟨(fun _ _ ht => by cases ht), fun _ _ ht => by cases ht⟩
  | append_singleton ops op ih =>
    obtain ⟨hbefore, hop⟩ := PartialRun.follows_concat.mp h
    rw [run_concat]
    exact (ih hbefore).next hop

end Refs

end WeakReferences
