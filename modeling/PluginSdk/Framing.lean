import Mathlib

/-! Streams cut into pieces: by a parser that knows the length of each frame,
or by a last item that ends each group. -/

namespace Framing

variable {α β γ : Type}

/-- Applies `next` until the stream is used up; `none` when it ends within a frame. -/
def unframe (next : List β → Option (α × List β)) : Nat → List β → Option (List α)
  | _, [] => some []
  | 0, _ :: _ => none
  | fuel + 1, b :: bs => do
    let (a, rest) ← next (b :: bs)
    let as ← unframe next fuel rest
    some (a :: as)

def parse (next : List β → Option (α × List β)) (bs : List β) : Option (List α) :=
  unframe next bs.length bs

theorem unframe_append {next : List β → Option (α × List β)} {frame rest : List β} {a : α}
    (hne : frame ≠ []) (hnext : next (frame ++ rest) = some (a, rest)) (fuel : Nat) :
    unframe next (fuel + 1) (frame ++ rest) = (unframe next fuel rest).map (a :: ·) := by
  obtain ⟨b, bs, rfl⟩ := List.exists_cons_of_ne_nil hne
  rw [List.cons_append] at hnext ⊢
  rw [unframe, hnext]
  cases h : unframe next fuel rest <;> simp [h]

theorem unframe_flatMap {next : List β → Option (α × List β)} {frame : γ → List β} {f : γ → α}
    {cs : List γ} (hne : ∀ c ∈ cs, frame c ≠ [])
    (hnext : ∀ c ∈ cs, ∀ rest, next (frame c ++ rest) = some (f c, rest)) {fuel : Nat}
    (hfuel : cs.length ≤ fuel) : unframe next fuel (cs.flatMap frame) = some (cs.map f) := by
  induction cs generalizing fuel with
  | nil => cases fuel <;> rfl
  | cons c cs ih =>
    obtain ⟨fuel, rfl⟩ : ∃ n, fuel = n + 1 := ⟨fuel - 1, by simp at hfuel; omega⟩
    have hlen : cs.length ≤ fuel := by simpa using hfuel
    have hrest := ih (fun d hd => hne d (List.mem_cons_of_mem c hd))
      (fun d hd => hnext d (List.mem_cons_of_mem c hd)) hlen
    rw [List.flatMap_cons, unframe_append (hne c (by simp)) (hnext c (by simp) _), hrest]
    rfl

theorem length_of_unframe {next : List β → Option (α × List β)} {size : α → Nat}
    (hsize : ∀ bs a rest, next bs = some (a, rest) → bs.length = size a + rest.length)
    {fuel : Nat} {bs : List β} {as : List α} (h : unframe next fuel bs = some as) :
    bs.length = (as.map size).sum := by
  induction fuel generalizing bs as with
  | zero =>
    cases bs with
    | nil => simp [unframe] at h; simp [h]
    | cons b bs => simp [unframe] at h
  | succ fuel ih =>
    cases bs with
    | nil => simp [unframe] at h; simp [h]
    | cons b bs =>
      simp only [unframe, Option.bind_eq_bind, Option.bind_eq_some_iff] at h
      obtain ⟨⟨a, rest⟩, hnext, as', hrest, ha⟩ := h
      obtain rfl := Option.some.inj ha
      rw [hsize _ a rest hnext, ih hrest, List.map_cons, List.sum_cons]

theorem length_flatMap_eq_iff {frame : γ → List β} {size : γ → Nat} {cs : List γ}
    (hle : ∀ c ∈ cs, (frame c).length ≤ size c) :
    (cs.flatMap frame).length = (cs.map size).sum ↔ ∀ c ∈ cs, (frame c).length = size c := by
  induction cs with
  | nil => simp
  | cons c cs ih =>
    have hhead := hle c (by simp)
    have htail := ih fun d hd => hle d (List.mem_cons_of_mem c hd)
    have hsum : (cs.flatMap frame).length ≤ (cs.map size).sum := by
      rw [List.length_flatMap]
      exact List.sum_le_sum fun d hd => hle d (List.mem_cons_of_mem c hd)
    rw [List.flatMap_cons, List.length_append, List.map_cons, List.sum_cons, List.forall_mem_cons,
      ← htail]
    omega

/-- A stream of frames that may have been cut short is read back as its own
list exactly when no frame was. -/
theorem parse_flatMap_iff {next : List β → Option (α × List β)} (size : α → Nat)
    {frame : γ → List β} {f : γ → α} {cs : List γ}
    (hsize : ∀ bs a rest, next bs = some (a, rest) → bs.length = size a + rest.length)
    (hne : ∀ c ∈ cs, frame c ≠ []) (hle : ∀ c ∈ cs, (frame c).length ≤ size (f c))
    (hnext : ∀ c ∈ cs, (frame c).length = size (f c) →
      ∀ rest, next (frame c ++ rest) = some (f c, rest)) :
    parse next (cs.flatMap frame) = some (cs.map f) ↔
      ∀ c ∈ cs, (frame c).length = size (f c) := by
  constructor
  · intro h
    have hlen := length_of_unframe hsize h
    rw [List.map_map] at hlen
    exact (length_flatMap_eq_iff hle).mp hlen
  · intro h
    refine unframe_flatMap hne (fun c hc => hnext c hc (h c hc)) ?_
    have hpos : ∀ n ∈ cs.map (fun c => (frame c).length), 1 ≤ n := by
      intro n hn
      obtain ⟨c, hc, rfl⟩ := List.mem_map.mp hn
      exact List.length_pos_iff.mpr (hne c hc)
    have hlen := List.length_le_sum_of_one_le _ hpos
    rwa [List.length_map, ← List.length_flatMap] at hlen

/-- The groups that end with a `final` item; what follows the last one is open. -/
def groups (final : α → Bool) : List α → List (List α)
  | [] => []
  | a :: as =>
    if final a then [a] :: groups final as
    else
      match groups final as with
      | [] => [[a]]
      | g :: gs => (a :: g) :: gs

theorem groups_append {final : α → Bool} {init : List α} {last : α}
    (hinit : ∀ a ∈ init, final a = false) (hlast : final last = true) (rest : List α) :
    groups final (init ++ last :: rest) = (init ++ [last]) :: groups final rest := by
  induction init with
  | nil => simp [groups, hlast]
  | cons a init ih =>
    have hrest := ih fun b hb => hinit b (List.mem_cons_of_mem a hb)
    simp [groups, hinit a, hrest]

end Framing
