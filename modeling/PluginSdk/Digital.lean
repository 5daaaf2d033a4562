import Mathlib.Algebra.BigOperators.Group.List.Basic
import Mathlib.Algebra.Order.Ring.Int
import Mathlib.Algebra.Order.Group.Unbundled.Basic
import PluginSdk.History

/-! Triggers, pulses and clock dividers. What they answer is told by the latest
samples, whatever was asked before. -/

namespace PluginSdk

open History

/-! The trigger with two thresholds. Comparisons with what is not a number are false. -/

inductive SchmittState
  | LOW
  | HIGH
  | UNINITIALIZED
  deriving DecidableEq, Repr

inductive TriggerEvent
  | NONE
  | TRIGGERED
  | UNTRIGGERED
  deriving DecidableEq, Repr

structure Sample (F : Type) where
  input : F
  lowThreshold : F
  highThreshold : F

inductive SchmittCall (F : Type)
  | reset
  | process (x : Sample F)
  | processEvent (x : Sample F)

section

variable {F : Type} [LE F] [DecidableLE F]

namespace SchmittState

def process (s : SchmittState) (x : Sample F) : Bool × SchmittState :=
  if s = LOW ∧ x.highThreshold ≤ x.input then (true, HIGH)
  else if s = HIGH ∧ x.input ≤ x.lowThreshold then (false, LOW)
  else if s = UNINITIALIZED ∧ x.highThreshold ≤ x.input then (false, HIGH)
  else if s = UNINITIALIZED ∧ x.input ≤ x.lowThreshold then (false, LOW)
  else (false, s)

def processEvent (s : SchmittState) (x : Sample F) : TriggerEvent × SchmittState :=
  if s = LOW ∧ x.highThreshold ≤ x.input then (.TRIGGERED, HIGH)
  else if s = HIGH ∧ x.input ≤ x.lowThreshold then (.UNTRIGGERED, LOW)
  else if s = UNINITIALIZED ∧ x.highThreshold ≤ x.input then (.NONE, HIGH)
  else if s = UNINITIALIZED ∧ x.input ≤ x.lowThreshold then (.NONE, LOW)
  else (.NONE, s)

def next (s : SchmittState) : SchmittCall F → SchmittState
  | .reset => UNINITIALIZED
  | .process x => (s.process x).2
  | .processEvent x => (s.processEvent x).2

def run (calls : List (SchmittCall F)) : SchmittState := calls.foldl next UNINITIALIZED

end SchmittState

/-- The level a sample leaves no doubt about. -/
def Sample.level (x : Sample F) : Option SchmittState :=
  if x.highThreshold ≤ x.input then some .HIGH
  else if x.input ≤ x.lowThreshold then some .LOW
  else none

namespace SchmittCall

def sample : SchmittCall F → Option (Sample F)
  | .reset => none
  | .process x => some x
  | .processEvent x => some x

def isReset : SchmittCall F → Bool
  | .reset => true
  | _ => false

/-- What the latest decisive sample since the reset said. -/
def level (calls : List (SchmittCall F)) : SchmittState :=
  (latest (fun call => call.sample.bind Sample.level) (since isReset calls)).getD .UNINITIALIZED

theorem level_concat (calls : List (SchmittCall F)) (call : SchmittCall F) :
    level (calls ++ [call]) = if call.isReset then .UNINITIALIZED
      else (call.sample.bind Sample.level).getD (level calls) := by
  rw [level, since_concat]
  cases call.isReset with
  | true => rfl
  | false =>
    rw [if_neg Bool.false_ne_true, if_neg Bool.false_ne_true, latest_concat, level]
    cases call.sample.bind Sample.level <;> rfl

end SchmittCall

namespace Sample

/-- No sample is beyond both thresholds. -/
def Consistent (x : Sample F) : Prop := ¬ (x.highThreshold ≤ x.input ∧ x.input ≤ x.lowThreshold)

end Sample

theorem SchmittState.processEvent_state (s : SchmittState) (x : Sample F) :
    (s.processEvent x).2 = (s.process x).2 := by
  rw [processEvent, process]
  split_ifs <;> rfl

theorem SchmittState.process_state {x : Sample F} (hx : x.Consistent) (s : SchmittState) :
    (s.process x).2 = x.level.getD s := by
  rw [Sample.Consistent, not_and] at hx
  by_cases hhigh : x.highThreshold ≤ x.input
  · have hlow := hx hhigh
    cases s <;> simp [process, Sample.level, hhigh, hlow]
  · by_cases hlow : x.input ≤ x.lowThreshold <;>
      cases s <;> simp [process, Sample.level, hhigh, hlow]

theorem SchmittState.process_triggers (s : SchmittState) (x : Sample F) :
    (s.process x).1 = true ↔ s = LOW ∧ x.highThreshold ≤ x.input := by
  rw [process]
  split_ifs <;> simp_all

theorem SchmittState.processEvent_triggers (s : SchmittState) (x : Sample F) :
    (s.processEvent x).1 = .TRIGGERED ↔ s = LOW ∧ x.highThreshold ≤ x.input := by
  rw [processEvent]
  split_ifs <;> simp_all

theorem SchmittState.processEvent_untriggers (s : SchmittState) (x : Sample F) :
    (s.processEvent x).1 = .UNTRIGGERED ↔ s = HIGH ∧ x.input ≤ x.lowThreshold := by
  rw [processEvent]
  split_ifs <;> simp_all

theorem SchmittState.run_eq_level {calls : List (SchmittCall F)}
    (hcalls : ∀ call ∈ calls, ∀ x, call.sample = some x → x.Consistent) :
    run calls = SchmittCall.level calls := by
  induction calls using List.reverseRecOn with
  | nil => rfl
  | append_singleton calls call ih =>
    have hlast := hcalls call (List.mem_append_right _ List.mem_cons_self)
    have hrun : run (calls ++ [call]) = (run calls).next call := List.foldl_concat _ _ _ _
    rw [hrun, ih fun c hc => hcalls c (List.mem_append_left _ hc)]
    rw [SchmittCall.level_concat]
    cases call with
    | reset => rfl
    | process x => exact process_state (hlast x rfl) _
    | processEvent x => exact (processEvent_state _ x).trans (process_state (hlast x rfl) _)

/-- Whatever was called before, the trigger answers by the latest decisive sample since the
reset, and the two ways to ask agree. -/
theorem schmittTrigger_answers {calls : List (SchmittCall F)}
    (hcalls : ∀ call ∈ calls, ∀ x, call.sample = some x → x.Consistent) (x : Sample F) :
    (((SchmittState.run calls).process x).1 = true ↔
        SchmittCall.level calls = .LOW ∧ x.highThreshold ≤ x.input) ∧
      (((SchmittState.run calls).processEvent x).1 = .TRIGGERED ↔
        SchmittCall.level calls = .LOW ∧ x.highThreshold ≤ x.input) ∧
      (((SchmittState.run calls).processEvent x).1 = .UNTRIGGERED ↔
        SchmittCall.level calls = .HIGH ∧ x.input ≤ x.lowThreshold) ∧
      ((SchmittState.run calls).processEvent x).2 = ((SchmittState.run calls).process x).2 := by
  rw [SchmittState.run_eq_level hcalls]
  exact ⟨SchmittState.process_triggers _ x, SchmittState.processEvent_triggers _ x,
    SchmittState.processEvent_untriggers _ x, SchmittState.processEvent_state _ x⟩

/-! The trigger on several lanes at once. A comparison sets all bits of its lane or none. -/

def mask (p : Prop) [Decidable p] : BitVec 32 := if p then BitVec.allOnes 32 else 0

inductive LanesCall (F : Type) (lanes : Nat)
  | reset
  | process (x : Vector (Sample F) lanes)

/-- What one lane is called with. -/
def LanesCall.lane {lanes : Nat} (c : Fin lanes) : LanesCall F lanes → SchmittCall F
  | .reset => .reset
  | .process x => .process (x.get c)

namespace TSchmittTrigger

variable {lanes : Nat}

def process (state : Vector (BitVec 32) lanes) (x : Vector (Sample F) lanes) :
    Vector (BitVec 32) lanes × Vector (BitVec 32) lanes :=
  let on := x.map fun x => mask (x.highThreshold ≤ x.input)
  let off := x.map fun x => mask (x.input ≤ x.lowThreshold)
  let triggered := Vector.zipWith (fun s on => ~~~s &&& on) state on
  (triggered, Vector.zipWith (fun on s => on ||| s) on
    (Vector.zipWith (fun s off => s &&& ~~~off) state off))

def next (state : Vector (BitVec 32) lanes) : LanesCall F lanes → Vector (BitVec 32) lanes
  | .reset => .replicate lanes 0
  | .process x => (process state x).2

def run (calls : List (LanesCall F lanes)) : Vector (BitVec 32) lanes :=
  calls.foldl next (.replicate lanes 0)

theorem get_map {α β : Type} (f : α → β) (xs : Vector α lanes) (c : Fin lanes) :
    (xs.map f).get c = f (xs.get c) :=
  Vector.getElem_map f c.isLt

theorem get_zipWith {α β γ : Type} (f : α → β → γ) (xs : Vector α lanes) (ys : Vector β lanes)
    (c : Fin lanes) : (Vector.zipWith f xs ys).get c = f (xs.get c) (ys.get c) :=
  Vector.getElem_zipWith c.isLt

theorem mask_or (p q : Prop) [Decidable p] [Decidable q] : mask p ||| mask q = mask (p ∨ q) := by
  by_cases hp : p <;> by_cases hq : q <;> simp [mask, hp, hq]

theorem mask_and (p q : Prop) [Decidable p] [Decidable q] : mask p &&& mask q = mask (p ∧ q) := by
  by_cases hp : p <;> by_cases hq : q <;> simp [mask, hp, hq]

theorem mask_not (p : Prop) [Decidable p] : ~~~mask p = mask ¬p := by
  by_cases hp : p <;> simp [mask, hp]

theorem mask_congr {p q : Prop} [Decidable p] [Decidable q] (h : p ↔ q) : mask p = mask q :=
  if_congr h rfl rfl

theorem get_run (calls : List (LanesCall F lanes)) (c : Fin lanes) :
    (run calls).get c = mask (SchmittCall.level (calls.map (·.lane c)) = .HIGH) := by
  induction calls using List.reverseRecOn with
  | nil => exact Vector.getElem_replicate c.isLt
  | append_singleton calls call ih =>
    have hrun : run (calls ++ [call]) = next (run calls) call := List.foldl_concat _ _ _ _
    rw [hrun, List.map_append, List.map_singleton, SchmittCall.level_concat]
    cases call with
    | reset => exact Vector.getElem_replicate c.isLt
    | process x =>
      simp only [next, process, get_zipWith, get_map, ih, mask_not, mask_and, mask_or]
      simp only [LanesCall.lane, SchmittCall.isReset, SchmittCall.sample, Option.bind_some,
        Sample.level]
      by_cases hhigh : (x.get c).highThreshold ≤ (x.get c).input <;>
        by_cases hlow : (x.get c).input ≤ (x.get c).lowThreshold <;>
        simp [hhigh, hlow]

/-- Each lane is a trigger of its own. It also answers to a first high sample, which the other
trigger takes for its state at the start. -/
theorem schmittLanes_agree {calls : List (LanesCall F lanes)} {c : Fin lanes}
    (hcalls : ∀ x, .process x ∈ calls → (x.get c).Consistent) (x : Vector (Sample F) lanes) :
    (run calls).get c = mask (SchmittState.run (calls.map (·.lane c)) = .HIGH) ∧
      (process (run calls) x).1.get c =
        mask (((SchmittState.run (calls.map (·.lane c))).process (x.get c)).1 = true ∨
          SchmittState.run (calls.map (·.lane c)) = .UNINITIALIZED ∧
            (x.get c).highThreshold ≤ (x.get c).input) := by
  have hlane : SchmittState.run (calls.map (·.lane c)) =
      SchmittCall.level (calls.map (·.lane c)) := by
    refine SchmittState.run_eq_level fun call hcall y hy => ?_
    obtain ⟨whole, hwhole, rfl⟩ := List.mem_map.mp hcall
    cases whole with
    | reset => cases hy
    | process x =>
      obtain rfl : x.get c = y := Option.some.inj hy
      exact hcalls x hwhole
  rw [hlane]
  refine ⟨get_run calls c, ?_⟩
  simp only [process, get_zipWith, get_map, get_run, mask_not, mask_and]
  refine mask_congr ?_
  rw [SchmittState.process_triggers]
  cases SchmittCall.level (calls.map (·.lane c)) <;> simp

end TSchmittTrigger

def afterLow : List (SchmittCall Int) := [.process ⟨0, 45, 55⟩, .processEvent ⟨50, 45, 55⟩]

theorem schmittTrigger_answers_afterLow :
    ((SchmittState.run afterLow).process ⟨60, 45, 55⟩).1 = true := by
  have hcalls : ∀ call ∈ afterLow, ∀ x, call.sample = some x → x.Consistent := by
    intro call hcall x hx
    simp only [afterLow, List.mem_cons, List.not_mem_nil, or_false] at hcall
    rcases hcall with rfl | rfl <;> obtain rfl := Option.some.inj hx <;> unfold Sample.Consistent <;>
      decide
  exact (schmittTrigger_answers hcalls ⟨60, 45, 55⟩).1.mpr (by decide)

def firstSamples : Vector (Sample Int) 2 := #v[⟨0, 45, 55⟩, ⟨50, 45, 55⟩]

theorem schmittLanes_agree_first :
    (TSchmittTrigger.process (TSchmittTrigger.run [.process firstSamples])
      #v[⟨(60 : Int), 45, 55⟩, ⟨70, 45, 55⟩]).1.get 1 = BitVec.allOnes 32 := by
  have hcalls : ∀ x, .process x ∈ [LanesCall.process firstSamples] → (x.get 1).Consistent := by
    intro x hx
    obtain rfl := LanesCall.process.inj (List.mem_singleton.mp hx)
    unfold Sample.Consistent
    decide
  have hagree := TSchmittTrigger.schmittLanes_agree hcalls #v[⟨60, 45, 55⟩, ⟨70, 45, 55⟩]
  refine hagree.2.trans ?_
  decide

end

/-! A pulse that is held for the longest of the durations asked for. -/

structure PulseGenerator (F : Type) where
  remaining : F

inductive PulseCall (F : Type)
  | reset
  | process (deltaTime : F)
  | trigger (duration : F)

namespace PulseGenerator

section

variable {F : Type} [Zero F] [Sub F] [LT F] [DecidableLT F]

def process (s : PulseGenerator F) (deltaTime : F) : Bool × PulseGenerator F :=
  if 0 < s.remaining then (true, ⟨s.remaining - deltaTime⟩) else (false, s)

def trigger (s : PulseGenerator F) (duration : F) : PulseGenerator F :=
  if s.remaining < duration then ⟨duration⟩ else s

def next (s : PulseGenerator F) : PulseCall F → PulseGenerator F
  | .reset => ⟨0⟩
  | .process deltaTime => (s.process deltaTime).2
  | .trigger duration => s.trigger duration

def run (calls : List (PulseCall F)) : PulseGenerator F := calls.foldl next ⟨0⟩

end

end PulseGenerator

namespace PulseCall

def isReset {F : Type} : PulseCall F → Bool
  | .reset => true
  | _ => false

def elapsed {F : Type} [Zero F] : PulseCall F → F
  | .process deltaTime => deltaTime
  | _ => 0

/-- What some trigger since the reset still asks for. -/
def Asked {F : Type} [AddCommGroup F] (calls : List (PulseCall F)) (left : F) : Prop :=
  ∃ pre call post, since isReset calls = pre ++ call :: post ∧
    ∃ duration, call = .trigger duration ∧ left = duration - (post.map elapsed).sum

section

variable {F : Type} [AddCommGroup F]

theorem not_asked_nil (left : F) : ¬ Asked [] left := by
  rintro ⟨pre, call, post, hsplit, -⟩
  simp at hsplit

theorem not_asked_reset (calls : List (PulseCall F)) (left : F) :
    ¬ Asked (calls ++ [.reset]) left := by
  rintro ⟨pre, call, post, hsplit, -⟩
  simp [isReset] at hsplit

theorem asked_trigger (calls : List (PulseCall F)) (duration left : F) :
    Asked (calls ++ [.trigger duration]) left ↔ Asked calls left ∨ left = duration := by
  have hsince : since isReset (calls ++ [PulseCall.trigger duration]) =
      since isReset calls ++ [.trigger duration] := since_concat _ _ _
  rw [Asked, hsince, exists_split_concat]
  refine or_congr ?_ ?_
  · simp [Asked, elapsed]
  · simp

theorem asked_process (calls : List (PulseCall F)) (deltaTime left : F) :
    Asked (calls ++ [.process deltaTime]) left ↔ Asked calls (left + deltaTime) := by
  have hsince : since isReset (calls ++ [PulseCall.process deltaTime]) =
      since isReset calls ++ [.process deltaTime] := since_concat _ _ _
  rw [Asked, hsince, exists_split_concat]
  simp [Asked, elapsed, eq_sub_iff_add_eq, add_assoc, add_comm deltaTime]

end

end PulseCall

namespace PulseGenerator

variable {F : Type} [AddCommGroup F] [LinearOrder F] [IsOrderedAddMonoid F]

/-- While the pulse is high, what is left of it is the most that is asked for. -/
structure Follows (s : PulseGenerator F) (calls : List (PulseCall F)) : Prop where
  most : ∀ left, PulseCall.Asked calls left → left ≤ max s.remaining 0
  asked : 0 < s.remaining → PulseCall.Asked calls s.remaining

theorem follows_run {calls : List (PulseCall F)}
    (hcalls : ∀ deltaTime, .process deltaTime ∈ calls → 0 ≤ deltaTime) :
    (run calls).Follows calls := by
  induction calls using List.reverseRecOn with
  | nil => exact ⟨fun left h => absurd h (PulseCall.not_asked_nil left), fun h => absurd h (lt_irrefl 0)⟩
  | append_singleton calls call ih =>
    have ih := ih fun deltaTime h => hcalls deltaTime (List.mem_append_left _ h)
    have hrun : run (calls ++ [call]) = (run calls).next call := List.foldl_concat _ _ _ _
    rw [hrun]
    generalize run calls = s at ih
    cases call with
    | reset =>
      exact ⟨fun left h => absurd h (PulseCall.not_asked_reset calls left),
        fun h => absurd h (lt_irrefl 0)⟩
    | trigger duration =>
      rw [next, trigger]
      split_ifs with hlonger
      · refine ⟨fun left hleft => ?_, fun _ => (PulseCall.asked_trigger _ _ _).mpr (.inr rfl)⟩
        rcases (PulseCall.asked_trigger _ _ _).mp hleft with hleft | rfl
        · exact (ih.most left hleft).trans (max_le_max_right 0 hlonger.le)
        · exact le_max_left _ _
      · refine ⟨fun left hleft => ?_,
          fun hpos => (PulseCall.asked_trigger _ _ _).mpr (.inl (ih.asked hpos))⟩
        rcases (PulseCall.asked_trigger _ _ _).mp hleft with hleft | rfl
        · exact ih.most left hleft
        · exact le_max_of_le_left (not_lt.mp hlonger)
    | process deltaTime =>
      have hdt := hcalls deltaTime (List.mem_append_right _ List.mem_cons_self)
      rw [next, process]
      split_ifs with hhigh
      · refine ⟨fun left hleft => ?_, fun _ => ?_⟩
        · have hbefore := ih.most _ ((PulseCall.asked_process _ _ _).mp hleft)
          rw [max_eq_left hhigh.le] at hbefore
          exact le_max_of_le_left (le_sub_iff_add_le.mpr hbefore)
        · rw [PulseCall.asked_process, sub_add_cancel]
          exact ih.asked hhigh
      · refine ⟨fun left hleft => ?_, fun hpos => absurd hpos hhigh⟩
        -- a pulse that is over stays over
        have hbefore := ih.most _ ((PulseCall.asked_process _ _ _).mp hleft)
        rw [max_eq_right (not_lt.mp hhigh)] at hbefore
        exact le_max_of_le_right ((le_add_of_nonneg_right hdt).trans hbefore)

end PulseGenerator

/-- After any calls the output is high exactly if some trigger since the reset asked for longer
than the time that has passed since it. -/
theorem pulseGenerator_high {F : Type} [AddCommGroup F] [LinearOrder F] [IsOrderedAddMonoid F]
    {calls : List (PulseCall F)} (hcalls : ∀ deltaTime, .process deltaTime ∈ calls → 0 ≤ deltaTime)
    (deltaTime : F) :
    ((PulseGenerator.run calls).process deltaTime).1 = true ↔
      ∃ pre duration post, since PulseCall.isReset calls = pre ++ .trigger duration :: post ∧
        (post.map PulseCall.elapsed).sum < duration := by
  have h := PulseGenerator.follows_run hcalls
  have hhigh : ((PulseGenerator.run calls).process deltaTime).1 = true ↔
      0 < (PulseGenerator.run calls).remaining := by
    rw [PulseGenerator.process]
    split_ifs with hpos <;> simp [hpos]
  rw [hhigh]
  constructor
  · intro hpos
    obtain ⟨pre, call, post, hsplit, duration, rfl, hleft⟩ := h.asked hpos
    exact ⟨pre, duration, post, hsplit, sub_pos.mp (hleft ▸ hpos)⟩
  · rintro ⟨pre, duration, post, hsplit, hlong⟩
    have hmost := h.most _ ⟨pre, _, post, hsplit, duration, rfl, rfl⟩
    exact (lt_max_iff.mp ((sub_pos.mpr hlong).trans_le hmost)).resolve_right (lt_irrefl 0)

theorem pulseGenerator_high_retriggered :
    ((PulseGenerator.run [.trigger (5 : Int), .process 3, .trigger 1, .process 1]).process 1).1 =
      true := by
  have hcalls : ∀ deltaTime, .process deltaTime ∈
      [PulseCall.trigger (5 : Int), .process 3, .trigger 1, .process 1] → 0 ≤ deltaTime := by
    intro deltaTime h
    simp only [List.mem_cons, PulseCall.process.injEq, List.not_mem_nil, or_false, reduceCtorEq,
      false_or] at h
    omega
  exact (pulseGenerator_high hcalls 1).mpr ⟨[], 5, _, rfl, by decide⟩

/-! A counter that answers every `division` calls. -/

structure ClockDivider where
  clock : UInt32 := 0
  division : UInt32 := 1

inductive DividerCall
  | reset
  | setDivision (division : UInt32)
  | process

namespace ClockDivider

def process (s : ClockDivider) : Bool × ClockDivider :=
  let clock := s.clock + 1
  if s.division ≤ clock then (true, { s with clock := 0 }) else (false, { s with clock })

def next (s : ClockDivider) : DividerCall → ClockDivider
  | .reset => { s with clock := 0 }
  | .setDivision division => { s with division }
  | .process => s.process.2

/-- The first call that answers, from a clock that may be beyond the division already. -/
def firstTick (s : ClockDivider) : Nat := max 1 (s.division.toNat - s.clock.toNat)

def period (s : ClockDivider) : Nat := max 1 s.division.toNat

theorem process_eq {s : ClockDivider} (hs : s.clock.toNat + 1 < 2 ^ 32) :
    (s.process.1 = true ↔ s.division.toNat ≤ s.clock.toNat + 1) ∧
      s.process.2.division = s.division ∧
      s.process.2.clock.toNat =
        if s.division.toNat ≤ s.clock.toNat + 1 then 0 else s.clock.toNat + 1 := by
  have hclock : (s.clock + 1).toNat = s.clock.toNat + 1 := by
    rw [UInt32.toNat_add]
    exact Nat.mod_eq_of_lt hs
  have hle : s.division ≤ s.clock + 1 ↔ s.division.toNat ≤ s.clock.toNat + 1 := by
    rw [UInt32.le_iff_toNat_le, hclock]
  rw [process]
  simp only [hle]
  split_ifs with h
  · exact ⟨iff_of_true rfl h, rfl, rfl⟩
  · exact ⟨iff_of_false id h, rfl, hclock⟩

/-- The clock never wraps around. -/
theorem clock_lt (calls : List DividerCall) : (calls.foldl next {}).clock.toNat + 1 < 2 ^ 32 := by
  induction calls using List.reverseRecOn with
  | nil => decide
  | append_singleton calls call ih =>
    rw [List.foldl_concat]
    generalize calls.foldl next {} = s at ih
    cases call with
    | reset =>
      show (0 : Nat) + 1 < 2 ^ 32
      decide
    | setDivision division => exact ih
    | process =>
      show s.process.2.clock.toNat + 1 < 2 ^ 32
      have hdivision := s.division.toNat_lt
      rw [(process_eq ih).2.2]
      split_ifs <;> omega

/-- After `n` calls to `process` the clock is at the calls since the latest answer. -/
theorem clock_after {s : ClockDivider} (hs : s.clock.toNat + 1 < 2 ^ 32) (n : Nat) :
    ((List.replicate n .process).foldl next s).division = s.division ∧
      ((List.replicate n .process).foldl next s).clock.toNat =
        if n < s.firstTick then s.clock.toNat + n else (n - s.firstTick) % s.period := by
  induction n with
  | zero =>
    have hfirst : 0 < s.firstTick := Nat.lt_of_lt_of_le Nat.zero_lt_one (le_max_left _ _)
    exact ⟨rfl, (if_pos hfirst).symm⟩
  | succ n ih =>
    obtain ⟨hdivision, hclock⟩ := ih
    have hlt := s.division.toNat_lt
    have hlow : s.clock.toNat + s.firstTick ≤ max (s.clock.toNat + 1) s.division.toNat := by
      rw [firstTick]
      omega
    rw [List.replicate_succ', List.foldl_concat]
    by_cases hn : n < s.firstTick
    · rw [if_pos hn] at hclock
      obtain ⟨-, hkeep, hnext⟩ := process_eq (s := (List.replicate n .process).foldl next s)
        (by omega)
      refine ⟨hkeep.trans hdivision, hnext.trans ?_⟩
      rw [hdivision, hclock]
      by_cases hfirst : n + 1 < s.firstTick
      · have hwait : ¬ s.division.toNat ≤ s.clock.toNat + n + 1 := by
          rw [firstTick] at hfirst
          omega
        rw [if_pos hfirst, if_neg hwait, Nat.add_assoc]
      · have hnow : n + 1 - s.firstTick = 0 := by omega
        have hanswer : s.division.toNat ≤ s.clock.toNat + n + 1 := by
          rw [firstTick] at hfirst
          omega
        rw [if_neg hfirst, if_pos hanswer, hnow, Nat.zero_mod]
    · have hperiod : 0 < s.period := Nat.lt_of_lt_of_le Nat.zero_lt_one (le_max_left _ _)
      have hmod := Nat.mod_lt (n - s.firstTick) hperiod
      have hbound : s.period < 2 ^ 32 := by
        rw [period]
        omega
      rw [if_neg hn] at hclock
      obtain ⟨-, hkeep, hnext⟩ := process_eq (s := (List.replicate n .process).foldl next s)
        (by omega)
      refine ⟨hkeep.trans hdivision, hnext.trans ?_⟩
      have hage : n + 1 - s.firstTick = n - s.firstTick + 1 := by omega
      have hnot : ¬ n + 1 < s.firstTick := by omega
      rw [hdivision, hclock, if_neg hnot, hage, ← Nat.mod_add_mod (n - s.firstTick)]
      by_cases hfull : (n - s.firstTick) % s.period + 1 = s.period
      · have hanswer : s.division.toNat ≤ (n - s.firstTick) % s.period + 1 :=
          (le_max_right 1 s.division.toNat).trans hfull.ge
        rw [if_pos hanswer, hfull, Nat.mod_self]
      · have hwait : ¬ s.division.toNat ≤ (n - s.firstTick) % s.period + 1 := by
          have hdiv : s.period = max 1 s.division.toNat := rfl
          omega
        have hnext : (n - s.firstTick) % s.period + 1 < s.period := by omega
        rw [if_neg hwait]
        exact (Nat.mod_eq_of_lt hnext).symm

end ClockDivider

/-- Whatever was called before, from then on `process` answers at the first tick and then once
every `division` calls, and the clock never passes the end of its type. -/
theorem clockDivider_ticks (calls : List DividerCall) (n : Nat) :
    (((List.replicate n .process).foldl ClockDivider.next
        (calls.foldl ClockDivider.next {})).process.1 = true ↔
      (calls.foldl ClockDivider.next {}).firstTick ≤ n + 1 ∧
        (calls.foldl ClockDivider.next {}).period ∣
          n + 1 - (calls.foldl ClockDivider.next {}).firstTick) ∧
      ((List.replicate n .process).foldl ClockDivider.next
        (calls.foldl ClockDivider.next {})).clock.toNat + 1 < 2 ^ 32 := by
  have hs := ClockDivider.clock_lt calls
  have ht := ClockDivider.clock_lt (calls ++ List.replicate n .process)
  rw [List.foldl_append] at ht
  refine ⟨?_, ht⟩
  generalize calls.foldl ClockDivider.next {} = s at hs ht
  obtain ⟨hdivision, hclock⟩ := ClockDivider.clock_after hs n
  obtain ⟨hanswer, -, -⟩ := ClockDivider.process_eq ht
  rw [hanswer, hdivision, hclock]
  by_cases hn : n < s.firstTick
  · -- the clock has counted every call so far
    rw [if_pos hn]
    by_cases hfirst : n + 1 = s.firstTick
    · have hnow : n + 1 - s.firstTick = 0 := by omega
      rw [hnow]
      refine iff_of_true ?_ ⟨hfirst.ge, Nat.dvd_zero _⟩
      rw [ClockDivider.firstTick] at hfirst
      omega
    · refine iff_of_false ?_ fun h => hfirst (Nat.le_antisymm hn h.1)
      rw [ClockDivider.firstTick] at hn hfirst
      omega
  · have hperiod : 0 < s.period := Nat.lt_of_lt_of_le Nat.zero_lt_one (le_max_left _ _)
    have hmod := Nat.mod_lt (n - s.firstTick) hperiod
    have hage : n + 1 - s.firstTick = n - s.firstTick + 1 := by omega
    have hreached : s.firstTick ≤ n + 1 := by omega
    have hmax : s.period = max 1 s.division.toNat := rfl
    rw [if_neg hn, hage, and_iff_right hreached, Nat.dvd_iff_mod_eq_zero,
      ← Nat.mod_add_mod (n - s.firstTick)]
    by_cases hfull : (n - s.firstTick) % s.period + 1 = s.period
    · rw [hfull, Nat.mod_self]
      exact iff_of_true (by omega) rfl
    · have hnext : (n - s.firstTick) % s.period + 1 < s.period := by omega
      rw [Nat.mod_eq_of_lt hnext]
      exact iff_of_false (by omega) (Nat.succ_ne_zero _)

end PluginSdk
