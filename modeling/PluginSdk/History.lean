import Mathlib.Data.List.DropRight
import Mathlib.Data.List.Induction

/-! What the latest event of a history says, and the part of a history since
an event. A component that each event overwrites or leaves alone holds the
latest value written to it. -/

namespace History

variable {ε σ α : Type*}

def latest (f : ε → Option α) (es : List ε) : Option α := es.reverse.findSome? f

/-- The events after the latest one that satisfies `p`; all of them if none does. -/
def since (p : ε → Bool) (es : List ε) : List ε := es.rtakeWhile fun e => !p e

@[simp] theorem latest_nil (f : ε → Option α) : latest f [] = none := rfl

@[simp] theorem latest_concat (f : ε → Option α) (es : List ε) (e : ε) :
    latest f (es ++ [e]) = (f e).or (latest f es) := by
  rw [latest, List.reverse_concat, List.findSome?_cons]
  cases f e <;> rfl

@[simp] theorem since_nil (p : ε → Bool) : since p [] = [] := rfl

@[simp] theorem since_concat (p : ε → Bool) (es : List ε) (e : ε) :
    since p (es ++ [e]) = if p e then [] else since p es ++ [e] := by
  rw [since, List.rtakeWhile_concat]
  cases p e <;> rfl

theorem latest_map {β : Type*} (f : ε → Option α) (g : α → β) (es : List ε) :
    latest (fun e => (f e).map g) es = (latest f es).map g := by
  induction es using List.reverseRecOn with
  | nil => rfl
  | append_singleton es e ih =>
    rw [latest_concat, latest_concat, ih]
    cases f e <;> rfl

theorem latest_eq_none {f : ε → Option α} {es : List ε} (h : ∀ e ∈ es, f e = none) :
    latest f es = none := by
  rw [latest, List.findSome?_eq_none_iff]
  exact fun e he => h e (List.mem_reverse.mp he)

theorem latest_append (f : ε → Option α) (es fs : List ε) :
    latest f (es ++ fs) = (latest f fs).or (latest f es) := by
  rw [latest, List.reverse_append, List.findSome?_append]
  rfl

/-- Last write wins, over a whole run from any state. -/
theorem foldl_latest {step : σ → ε → σ} (get : σ → α) {write : ε → Option α} {es : List ε}
    (h : ∀ s, ∀ e ∈ es, get (step s e) = (write e).getD (get s)) (s : σ) :
    get (es.foldl step s) = (latest write es).getD (get s) := by
  induction es using List.reverseRecOn with
  | nil => rfl
  | append_singleton es e ih =>
    have hh := ih fun s e he => h s e (List.mem_append_left _ he)
    rw [List.foldl_concat, h _ e (by simp), hh, latest_concat]
    cases write e <;> rfl

/-- An event of a history and what came after it, when one more event comes. -/
theorem exists_split_concat {P : ε → List ε → Prop} {es : List ε} {e : ε} :
    (∃ pre x post, es ++ [e] = pre ++ x :: post ∧ P x post) ↔
      (∃ pre x post, es = pre ++ x :: post ∧ P x (post ++ [e])) ∨ P e [] := by
  constructor
  · rintro ⟨pre, x, post, hsplit, hx⟩
    cases post using List.reverseRecOn with
    | nil =>
      obtain ⟨-, hlast⟩ := List.append_inj' hsplit rfl
      obtain rfl := List.head_eq_of_cons_eq hlast
      exact .inr hx
    | append_singleton post last =>
      have hassoc : es ++ [e] = (pre ++ x :: post) ++ [last] := by simp [hsplit]
      obtain ⟨hfront, hlast⟩ := List.append_inj' hassoc rfl
      obtain rfl := List.head_eq_of_cons_eq hlast
      exact .inl ⟨pre, x, post, hfront, hx⟩
  · rintro (⟨pre, x, post, rfl, hx⟩ | hx)
    · exact ⟨pre, x, post ++ [e], by simp, hx⟩
    · exact ⟨es, e, [], rfl, hx⟩

end History
