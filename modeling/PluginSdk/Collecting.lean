import Mathlib.Data.List.Basic

/-! A loop that looks at one item after the other: an item is recorded, passed
over, or ends the loop with an error. -/

namespace Collecting

variable {ε α β σ : Type*} {recognise : α → Except ε (Option β)} {add : σ → β → σ}

def step (recognise : α → Except ε (Option β)) (add : σ → β → σ) (s : σ) (a : α) : Except ε σ :=
  match recognise a with
  | .error e => .error e
  | .ok none => .ok s
  | .ok (some b) => .ok (add s b)

def run (recognise : α → Except ε (Option β)) (add : σ → β → σ) (s : σ) : List α → Except ε σ
  | [] => .ok s
  | a :: as =>
    match step recognise add s a with
    | .error e => .error e
    | .ok s' => run recognise add s' as

/-- What is recorded of one item, no matter what came before it. -/
def record (recognise : α → Except ε (Option β)) (a : α) : Option β :=
  match recognise a with
  | .ok b => b
  | .error _ => none

theorem run_cons_ok {a : α} {b : Option β} (h : recognise a = .ok b) (s : σ) (as : List α) :
    run recognise add s (a :: as) = run recognise add (b.elim s (add s)) as := by
  cases b <;> simp only [run, step, h, Option.elim]

theorem run_cons_error {a : α} {e : ε} (h : recognise a = .error e) (s : σ) (as : List α) :
    run recognise add s (a :: as) = .error e := by
  simp only [run, step, h]

/-- The loop ends well exactly if no item is an error, and then the records
have been added in the order of the items. -/
theorem run_eq_ok_iff {s s' : σ} {as : List α} :
    run recognise add s as = .ok s' ↔
      (∀ a ∈ as, recognise a = .ok (record recognise a)) ∧
        s' = (as.filterMap (record recognise)).foldl add s := by
  induction as generalizing s with
  | nil => simp [run, eq_comm]
  | cons a as ih =>
    cases hr : recognise a with
    | error e =>
      rw [run_cons_error hr]
      refine iff_of_false (fun h => by cases h) fun h => ?_
      have ha := h.1 a List.mem_cons_self
      rw [hr] at ha
      cases ha
    | ok b =>
      have hb : record recognise a = b := by simp only [record, hr]
      rw [run_cons_ok hr, ih, List.forall_mem_cons, List.filterMap_cons, hb]
      cases b <;> simp [hr, Option.elim]

theorem run_append_error {a : α} {e : ε} (h : recognise a = .error e) (s : σ) (pre post : List α) :
    ∃ e', run recognise add s (pre ++ a :: post) = .error e' := by
  cases hrun : run recognise add s (pre ++ a :: post) with
  | error e' => exact ⟨e', rfl⟩
  | ok s' =>
    have ha := (run_eq_ok_iff.mp hrun).1 a (by simp)
    rw [h] at ha
    cases ha

/-- An item that is passed over may as well not be there. -/
theorem run_append_skip {a : α} (h : recognise a = .ok none) (s : σ) (pre post : List α) :
    run recognise add s (pre ++ a :: post) = run recognise add s (pre ++ post) := by
  induction pre generalizing s with
  | nil => rw [List.nil_append, run_cons_ok h]; rfl
  | cons b pre ih =>
    rw [List.cons_append, List.cons_append]
    cases hb : recognise b with
    | error e => rw [run_cons_error hb, run_cons_error hb]
    | ok r => rw [run_cons_ok hb, run_cons_ok hb, ih]

/-- A list that only receives the records with `p` ends up with all of them, in order. -/
theorem foldl_filter {γ : Type*} (proj : σ → List γ) {get : β → γ} {p : γ → Bool} {bs : List β}
    (h : ∀ b ∈ bs, ∀ s, proj (add s b) = proj s ++ [get b].filter p) (s : σ) :
    proj (bs.foldl add s) = proj s ++ (bs.map get).filter p := by
  induction bs generalizing s with
  | nil => simp
  | cons b bs ih =>
    have hrest := ih fun b' hb' => h b' (List.mem_cons_of_mem b hb')
    rw [List.foldl_cons, hrest, h b List.mem_cons_self, List.append_assoc, ← List.filter_append]
    rfl

/-- Sorted into one list for each kind, the records are all there. -/
theorem flatMap_filter_perm {κ : Type*} [DecidableEq κ] {kind : β → κ} {kinds : List κ}
    (hnd : kinds.Nodup) {bs : List β} (h : ∀ b ∈ bs, kind b ∈ kinds) :
    (kinds.flatMap fun k => bs.filter fun b => kind b = k).Perm bs := by
  induction kinds generalizing bs with
  | nil =>
    cases bs with
    | nil => exact .refl _
    | cons b bs => exact absurd (h b List.mem_cons_self) List.not_mem_nil
  | cons k kinds ih =>
    -- the other kinds find the same records once those of kind `k` are gone
    obtain ⟨hk, hnd'⟩ := List.nodup_cons.mp hnd
    have hrest : kinds.flatMap (fun k' => bs.filter fun b => kind b = k') =
        kinds.flatMap fun k' => (bs.filter fun b => !decide (kind b = k)).filter fun b => kind b = k' := by
      refine List.flatMap_congr fun k' hk' => ?_
      rw [List.filter_filter]
      refine List.filter_congr fun b _ => ?_
      by_cases hb : kind b = k'
      · have hne : ¬ kind b = k := fun he => hk (he.symm.trans hb ▸ hk')
        simp [hb, hb ▸ hne]
      · simp [hb]
    rw [List.flatMap_cons, hrest]
    refine ((ih hnd' fun b hb => ?_).append_left _).trans (List.filter_append_perm _ bs)
    obtain ⟨hmem, hne⟩ := List.mem_filter.mp hb
    have hne' : kind b ≠ k := by simpa using hne
    exact (List.mem_cons.mp (h b hmem)).resolve_left hne'

/-- A record with `p` stands in the list of those at the number of them before it. -/
theorem getElem?_filter_of_getElem? {p : β → Bool} {bs : List β} {i : Nat} {b : β}
    (hb : bs[i]? = some b) (hp : p b = true) :
    (bs.filter p)[((bs.take i).filter p).length]? = some b := by
  induction bs generalizing i with
  | nil => simp at hb
  | cons a bs ih =>
    cases i with
    | zero =>
      obtain rfl : a = b := by simpa using hb
      simp [hp]
    | succ i =>
      have hrest := ih hb
      by_cases ha : p a = true
      · simpa [List.filter_cons, ha] using hrest
      · simpa [List.filter_cons, ha] using hrest

end Collecting
