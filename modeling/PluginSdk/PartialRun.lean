import Mathlib.Data.List.Induction

/-! Runs of a step function that may fail. A run fails as soon as one of its
steps does. Invariants of a run may mention the events taken so far. -/

namespace PartialRun

variable {σ ε : Type*} (step : σ → ε → Option σ)

def run (s : σ) (es : List ε) : Option σ := es.foldlM step s

def Along (C : σ → ε → Prop) : σ → List ε → Prop
  | _, [] => True
  | s, e :: es => C s e ∧ ∀ t, step s e = some t → Along C t es

def AllSteps (R : σ → ε → σ → Prop) : σ → List ε → Prop
  | _, [] => True
  | s, e :: es => ∃ t, step s e = some t ∧ R s e t ∧ AllSteps R t es

def Follows (ok : List ε → ε → Prop) (es : List ε) : Prop :=
  ∀ pre e post, es = pre ++ e :: post → ok pre e

@[simp] theorem run_nil (s : σ) : run step s [] = some s := rfl

theorem run_concat (s : σ) (es : List ε) (e : ε) :
    run step s (es ++ [e]) = (run step s es).bind fun t => step t e := by
  simp only [run, List.foldlM_append, List.foldlM_cons, List.foldlM_nil, bind_pure]
  rfl

theorem Follows.of_append {ok : List ε → ε → Prop} {es fs : List ε}
    (h : Follows ok (es ++ fs)) : Follows ok es := by
  intro pre a post he
  refine h pre a (post ++ fs) ?_
  rw [he]
  simp

theorem follows_nil (ok : List ε → ε → Prop) : Follows ok [] := by
  intro pre e post he
  simp at he

theorem follows_concat {ok : List ε → ε → Prop} {es : List ε} {e : ε} :
    Follows ok (es ++ [e]) ↔ Follows ok es ∧ ok es e := by
  refine ⟨fun h => ⟨h.of_append, h es e [] rfl⟩, fun h pre a post he => ?_⟩
  induction post using List.reverseRecOn with
  | nil =>
    obtain ⟨rfl, hlast⟩ := List.append_inj' he rfl
    obtain rfl := List.head_eq_of_cons_eq hlast
    exact h.2
  | append_singleton post b _ =>
    have hassoc : es ++ [e] = (pre ++ a :: post) ++ [b] := by simp [he]
    exact h.1 pre a post (List.append_inj' hassoc rfl).1

theorem along_of_forall {C : σ → ε → Prop} (h : ∀ s e, C s e) (s : σ) (es : List ε) :
    Along step C s es := by
  induction es generalizing s with
  | nil => trivial
  | cons e es ih => exact ⟨h s e, fun t _ => ih t⟩

theorem follows_of_prefixes {ok : List ε → ε → Prop} {es : List ε}
    (h : ∀ n (hn : n < es.length), ok (es.take n) es[n]) : Follows ok es := by
  rintro pre e post rfl
  have hlt : pre.length < (pre ++ e :: post).length := by simp
  simpa using h pre.length hlt

variable {step}

theorem run_congr {step' : σ → ε → Option σ} {es : List ε}
    (h : ∀ e ∈ es, ∀ s, step s e = step' s e) (s : σ) : run step s es = run step' s es := by
  induction es generalizing s with
  | nil => rfl
  | cons e es ih =>
    have hrest := ih fun e he => h e (List.mem_cons_of_mem _ he)
    simp only [run, List.foldlM_cons, h e List.mem_cons_self] at hrest ⊢
    exact congrArg _ (funext hrest)

theorem along_cons {C : σ → ε → Prop} {s t : σ} {e : ε} {es : List ε} (ht : step s e = some t) :
    Along step C s (e :: es) ↔ C s e ∧ Along step C t es := by
  refine ⟨fun h => ⟨h.1, h.2 t ht⟩, fun h => ⟨h.1, fun u hu => ?_⟩⟩
  obtain rfl : t = u := Option.some.inj (ht.symm.trans hu)
  exact h.2

/-- What each allowed event establishes from the history before it holds
after every allowed history, which in particular does not fail. -/
theorem run_induction {ok : List ε → ε → Prop} {P : List ε → σ → Prop} {s : σ} (init : P [] s)
    (next : ∀ es e t, P es t → ok es e → ∃ u, step t e = some u ∧ P (es ++ [e]) u)
    {es : List ε} (hok : Follows ok es) : ∃ t, run step s es = some t ∧ P es t := by
  induction es using List.reverseRecOn with
  | nil => exact ⟨s, rfl, init⟩
  | append_singleton es e ih =>
    obtain ⟨t, ht, hp⟩ := ih (follows_concat.mp hok).1
    obtain ⟨u, hu, hp'⟩ := next es e t hp (follows_concat.mp hok).2
    exact ⟨u, by rw [run_concat, ht, Option.bind_some, hu], hp'⟩

/-- A counted loop: what holds after `i` rounds holds after one more. -/
theorem run_range {step : σ → Nat → Option σ} {P : Nat → σ → Prop} {s : σ} {n : Nat} (init : P 0 s)
    (next : ∀ i t, i < n → P i t → ∃ u, step t i = some u ∧ P (i + 1) u) :
    ∃ t, run step s (List.range n) = some t ∧ P n t := by
  induction n with
  | zero => exact ⟨s, rfl, init⟩
  | succ n ih =>
    obtain ⟨t, ht, hp⟩ := ih fun i t hi => next i t (by omega)
    obtain ⟨u, hu, hp'⟩ := next n t (Nat.lt_succ_self n) hp
    exact ⟨u, by rw [List.range_succ, run_concat, ht, Option.bind_some, hu], hp'⟩

/-- If under an invariant a step meets `R` exactly when its event meets `C`,
a run meets `R` at every step exactly when its events meet `C`. -/
theorem allSteps_iff_along {I : σ → Prop} {A C : σ → ε → Prop} {R : σ → ε → σ → Prop}
    (exact : ∀ s e, I s → A s e → ((∃ t, step s e = some t ∧ R s e t) ↔ C s e))
    (keep : ∀ s e t, I s → A s e → step s e = some t → R s e t → I t)
    {s : σ} {es : List ε} (hs : I s) (ha : Along step A s es) :
    AllSteps step R s es ↔ Along step C s es := by
  induction es generalizing s with
  | nil => exact Iff.rfl
  | cons e es ih =>
    constructor
    · rintro ⟨t, ht, hr, hrest⟩
      refine ⟨(exact s e hs ha.1).mp ⟨t, ht, hr⟩, fun u hu => ?_⟩
      obtain rfl : t = u := Option.some.inj (ht.symm.trans hu)
      exact (ih (keep s e t hs ha.1 ht hr) (ha.2 t ht)).mp hrest
    · rintro ⟨hc, hrest⟩
      obtain ⟨t, ht, hr⟩ := (exact s e hs ha.1).mpr hc
      exact ⟨t, ht, hr, (ih (keep s e t hs ha.1 ht hr) (ha.2 t ht)).mpr (hrest t ht)⟩

end PartialRun
