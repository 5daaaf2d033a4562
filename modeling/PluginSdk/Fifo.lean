import PluginSdk.PartialRun

/-! A first-in first-out queue of bounded length, and what it is for a component
to implement one. Positions are counted from the start of the run, so the queue
holds the values from some position on. -/

namespace Fifo

variable {T σ ε : Type*}

inductive Op (T : Type*)
  | put (ts : List T)
  | take (n : Nat)
  | clear

/-- The values held, the position of the first, and what was taken so far. -/
structure Queue (T : Type*) where
  held : List T
  pos : Nat
  taken : List T

namespace Queue

def init : Queue T := ⟨[], 0, []⟩

def next (q : Queue T) : Op T → Queue T
  | .put ts => { q with held := q.held ++ ts }
  | .take n =>
    { held := q.held.drop n, pos := q.pos + n, taken := q.taken ++ q.held.take n }
  | .clear => { q with held := [], pos := q.pos + q.held.length }

/-- What an operation hands out. -/
def out (q : Queue T) : Op T → List T
  | .take n => q.held.take n
  | _ => []

theorem next_taken (q : Queue T) (op : Op T) : (q.next op).taken = q.taken ++ q.out op := by
  cases op with
  | put ts => exact (List.append_nil _).symm
  | take n => rfl
  | clear => exact (List.append_nil _).symm

def run (q : Queue T) (ops : List (Op T)) : Queue T := ops.foldl next q

/-- What is put fits into `S` values, and what is taken is there. -/
def Admits (S : Nat) (q : Queue T) : Op T → Prop
  | .put ts => q.held.length + ts.length ≤ S
  | .take n => n ≤ q.held.length
  | .clear => True

instance (S : Nat) (q : Queue T) (op : Op T) : Decidable (Admits S q op) :=
  match op with
  | .put ts => inferInstanceAs (Decidable (q.held.length + ts.length ≤ S))
  | .take n => inferInstanceAs (Decidable (n ≤ q.held.length))
  | .clear => inferInstanceAs (Decidable True)

/-- Every operation is admitted by the queue that those before it leave. -/
def Admitted (S : Nat) (ops : List (Op T)) : Prop :=
  PartialRun.Follows (fun before op => Admits S (init.run before) op) ops

end Queue

open Queue

def puts : List (Op T) → List T
  | [] => []
  | .put ts :: ops => ts ++ puts ops
  | _ :: ops => puts ops

theorem puts_append (ops ops' : List (Op T)) : puts (ops ++ ops') = puts ops ++ puts ops' := by
  induction ops with
  | nil => rfl
  | cons op ops ih =>
    cases op with
    | put ts => rw [List.cons_append, puts, puts, ih, List.append_assoc]
    | take n => exact ih
    | clear => exact ih

theorem run_concat (q : Queue T) (ops : List (Op T)) (op : Op T) :
    q.run (ops ++ [op]) = (q.run ops).next op := by
  rw [Queue.run, List.foldl_append]
  rfl

/-- No position is lost or made up, and what is held was put last. -/
theorem held_eq_drop {S : Nat} {ops : List (Op T)} (h : Admitted S ops) :
    (init.run ops).pos ≤ (puts ops).length ∧
      (init.run ops).held = (puts ops).drop (init.run ops).pos := by
  induction ops using List.reverseRecOn with
  | nil => exact ⟨Nat.le_refl 0, rfl⟩
  | append_singleton ops op ih =>
    obtain ⟨hbefore, hop⟩ := PartialRun.follows_concat.mp h
    obtain ⟨hpos, hheld⟩ := ih hbefore
    have hlen := congrArg List.length hheld
    rw [List.length_drop] at hlen
    rw [run_concat, puts_append]
    cases op with
    | put ts =>
      refine ⟨by simp only [next, List.length_append]; omega, ?_⟩
      simp only [next, puts, List.append_nil]
      rw [List.drop_append_of_le_length hpos, hheld]
    | take n =>
      simp only [Admits] at hop
      refine ⟨by simp only [next, puts, List.append_nil]; omega, ?_⟩
      simp only [next, puts, List.append_nil]
      rw [hheld, List.drop_drop]
    | clear =>
      refine ⟨by simp only [next, puts, List.append_nil]; omega, ?_⟩
      simp only [next, puts, List.append_nil]
      rw [List.drop_eq_nil_of_le (by omega)]

theorem end_eq_puts {S : Nat} {ops : List (Op T)} (h : Admitted S ops) :
    (init.run ops).pos + (init.run ops).held.length = (puts ops).length := by
  obtain ⟨hpos, hheld⟩ := held_eq_drop h
  rw [hheld, List.length_drop]
  omega

/-- The steps of a component, with what they handed out so far. -/
def collect (step : σ → ε → Option (σ × List T)) (s : σ × List T) (e : ε) : Option (σ × List T) :=
  (step s.1 e).map fun t => (t.1, s.2 ++ t.2)

/-- A relation that every admitted step keeps is kept by every admitted run, which
hands out what the queue does. The run may be known to end by position `N`. -/
theorem run_refines {step : σ → ε → Option (σ × List T)} {op : ε → Op T} {S N : Nat}
    {R : Queue T → σ → Prop} {s : σ} (hinit : R init s)
    (hnext : ∀ q s e, R q s → Admits S q (op e) → q.pos + q.held.length ≤ N →
      ∃ t, step s e = some (t, q.out (op e)) ∧ R (q.next (op e)) t)
    {es : List ε} (hadm : Admitted S (es.map op)) (hN : (puts (es.map op)).length ≤ N) :
    ∃ t, PartialRun.run (collect step) (s, []) es = some (t, (init.run (es.map op)).taken) ∧
      R (init.run (es.map op)) t := by
  induction es using List.reverseRecOn with
  | nil => exact ⟨s, rfl, hinit⟩
  | append_singleton es e ih =>
    have hlast : (es ++ [e]).map op = es.map op ++ [op e] := by simp
    rw [hlast] at hadm hN ⊢
    obtain ⟨hbefore, hop⟩ := PartialRun.follows_concat.mp hadm
    have hend := end_eq_puts hbefore
    have hle : (puts (es.map op)).length ≤ N := by
      rw [puts_append, List.length_append] at hN
      omega
    obtain ⟨t, hrun, ht⟩ := ih hbefore hle
    rw [run_concat]
    obtain ⟨u, hu, hr⟩ := hnext _ t e ht hop (by omega)
    refine ⟨u, ?_, hr⟩
    rw [PartialRun.run_concat, hrun, Option.bind_some, collect, hu, next_taken]
    rfl

end Fifo
