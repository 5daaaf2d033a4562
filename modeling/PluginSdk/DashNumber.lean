import PluginSdk.ComponentName

/-! The numbers that a drawing program puts behind a repeated id, `-d` and
`-dd`. Where a number of two digits is taken off, one of one digit goes too. -/

namespace PluginSdk

open PythonText

theorem lastChars_append (b s : Str) : lastChars (b ++ s) s.length = s := by
  rw [lastChars, List.length_append, Nat.add_sub_cancel, List.drop_left]

theorem fromEnd_append (b digits : Str) (c : Char) :
    fromEnd (b ++ c :: digits) (digits.length + 1) digits.length = [c] := by
  have hsplit : b ++ c :: digits = (b ++ [c]) ++ digits := by simp
  have htake : (b ++ c :: digits).length - digits.length = (b ++ [c]).length := by
    rw [hsplit, List.length_append, Nat.add_sub_cancel]
  have hdrop : (b ++ c :: digits).length - (digits.length + 1) = b.length := by
    rw [List.length_append, List.length_cons, Nat.add_sub_cancel]
  rw [fromEnd, htake, hdrop, hsplit, List.take_left, List.drop_left]

section

variable [Unicode]

/-- A dash with `n` digits. -/
def IsDashDigits (n : Nat) (s : Str) : Prop :=
  ∃ digits, s = '-' :: digits ∧ digits.length = n ∧ ∀ d ∈ digits, isDigit d = true

def IsDashNumber (s : Str) : Prop := IsDashDigits 1 s ∨ IsDashDigits 2 s

def EndsInDashDigits (n : Nat) (name : Str) : Prop := ∃ b s, name = b ++ s ∧ IsDashDigits n s

/-- What the two slices of a test see of a name. -/
theorem test_iff {n : Nat} (hn : n ≠ 0) (name : Str) :
    fromEnd name (n + 1) n = ['-'] ∧ allDigits (lastChars name n) = true ↔
      EndsInDashDigits n name := by
  constructor
  · rintro ⟨hdash, hdigits⟩
    obtain ⟨-, hall⟩ := of_decide_eq_true hdigits
    have hlong : n + 1 ≤ name.length := by
      have hlen := congrArg List.length hdash
      simp only [fromEnd, List.length_drop, List.length_take, List.length_singleton] at hlen
      omega
    have hlast : (lastChars name n).length = n := by
      rw [lastChars, List.length_drop]
      omega
    refine ⟨name.take (name.length - (n + 1)), '-' :: lastChars name n, ?_, _, rfl, hlast,
      fun d hd => List.all_eq_true.mp hall d hd⟩
    have hmid : name.take (name.length - n) = name.take (name.length - (n + 1)) ++ ['-'] := by
      rw [← hdash, fromEnd]
      have htake : name.take (name.length - (n + 1)) =
          (name.take (name.length - n)).take (name.length - (n + 1)) := by
        rw [List.take_take, Nat.min_eq_left (by omega)]
      rw [htake, List.take_append_drop]
    calc name = name.take (name.length - n) ++ lastChars name n := by
          rw [lastChars, List.take_append_drop]
      _ = name.take (name.length - (n + 1)) ++ '-' :: lastChars name n := by
          rw [hmid, List.append_assoc, List.singleton_append]
  · rintro ⟨b, s, rfl, digits, rfl, rfl, hdigits⟩
    refine ⟨fromEnd_append b digits '-', ?_⟩
    have hlast : lastChars (b ++ '-' :: digits) digits.length = digits := by
      have hsplit : b ++ '-' :: digits = (b ++ ['-']) ++ digits := by simp
      rw [hsplit, lastChars_append]
    rw [hlast]
    exact decide_eq_true ⟨fun he => hn (by rw [he]; rfl), List.all_eq_true.mpr hdigits⟩

/-- The second test, made on what the first one has left. -/
def chopDigit (name : Str) : Str :=
  if fromEnd name 2 1 = ['-'] ∧ allDigits (lastChars name 1) = true then
    name.take (name.length - 2)
  else name

theorem removeTrailingDashNumber_eq (name : Str) :
    removeTrailingDashNumber name = chopDigit
      (if fromEnd name 3 2 = ['-'] ∧ allDigits (lastChars name 2) = true ∧
          allDigits (lastChars name 1) = true then name.take (name.length - 3) else name) := rfl

theorem chopDigit_append {b s : Str} (hs : IsDashDigits 1 s) : chopDigit (b ++ s) = b := by
  rw [chopDigit, if_pos ((test_iff one_ne_zero _).mpr ⟨b, s, rfl, hs⟩)]
  obtain ⟨digits, rfl, hlen, -⟩ := hs
  have hlength : (b ++ '-' :: digits).length - 2 = b.length := by
    rw [List.length_append, List.length_cons, hlen, Nat.add_sub_cancel]
  rw [hlength, List.take_left]

theorem chopDigit_of_not {name : Str} (h : ¬ EndsInDashDigits 1 name) : chopDigit name = name := by
  rw [chopDigit, if_neg fun htest => h ((test_iff one_ne_zero name).mp htest)]

theorem chopDigit_eq_self_iff (name : Str) : chopDigit name = name ↔ ¬ EndsInDashDigits 1 name := by
  refine ⟨fun he => ?_, chopDigit_of_not⟩
  rintro ⟨b, s, rfl, hs⟩
  rw [chopDigit_append hs] at he
  obtain ⟨digits, rfl, -⟩ := hs
  have hlen := congrArg List.length he
  rw [List.length_append, List.length_cons] at hlen
  omega

theorem removeTrailingDashNumber_append {b s : Str} (hs : IsDashDigits 2 s) :
    removeTrailingDashNumber (b ++ s) = chopDigit b := by
  obtain ⟨hdash, hdigits⟩ := (test_iff two_ne_zero _).mpr ⟨b, s, rfl, hs⟩
  obtain ⟨digits, rfl, hlen, hall⟩ := hs
  have hone : allDigits (lastChars (b ++ '-' :: digits) 1) = true := by
    match digits, hlen with
    | [d, e], _ =>
      have hlast : lastChars (b ++ ['-', d, e]) 1 = [e] := by
        have hsplit : b ++ ['-', d, e] = (b ++ ['-', d]) ++ [e] := by simp
        rw [hsplit]
        exact lastChars_append _ [e]
      rw [hlast]
      simpa [allDigits] using hall e (by simp)
  have hlength : (b ++ '-' :: digits).length - 3 = b.length := by
    rw [List.length_append, List.length_cons, hlen, Nat.add_sub_cancel]
  rw [removeTrailingDashNumber_eq, if_pos ⟨hdash, hdigits, hone⟩, hlength, List.take_left]

theorem removeTrailingDashNumber_of_not {name : Str} (h : ¬ EndsInDashDigits 2 name) :
    removeTrailingDashNumber name = chopDigit name := by
  have hneg : ¬ (fromEnd name 3 2 = ['-'] ∧ allDigits (lastChars name 2) = true ∧
      allDigits (lastChars name 1) = true) :=
    fun htest => h ((test_iff two_ne_zero name).mp ⟨htest.1, htest.2.1⟩)
  rw [removeTrailingDashNumber_eq, if_neg hneg]

theorem not_endsInDashDigits_two {b s : Str} (hs : IsDashDigits 1 s) :
    ¬ EndsInDashDigits 2 (b ++ s) := by
  intro hends
  have hdigits := ((test_iff two_ne_zero _).mpr hends).2
  obtain ⟨digits, rfl, hlen, -⟩ := hs
  -- of the last two characters the first is the dash
  have hlast : lastChars (b ++ '-' :: digits) 2 = '-' :: digits := by
    have hcount : ('-' :: digits).length = 2 := by rw [List.length_cons, hlen]
    rw [← hcount, lastChars_append]
  rw [hlast] at hdigits
  have hdash := List.all_eq_true.mp (of_decide_eq_true hdigits).2 '-' List.mem_cons_self
  cases hdash

/-- A number is taken off exactly once unless it has two digits and the base
ends in a number of one digit; without a number the name stays as it is. -/
theorem removeTrailingDashNumber_iff (b s : Str) (hs : IsDashNumber s) :
    (removeTrailingDashNumber (b ++ s) = b ↔ ¬ (IsDashDigits 2 s ∧ EndsInDashDigits 1 b)) ∧
      ∀ name : Str, (¬ ∃ b' s', name = b' ++ s' ∧ IsDashNumber s') →
        removeTrailingDashNumber name = name := by
  constructor
  · rcases hs with hone | htwo
    · have hnot : ¬ IsDashDigits 2 s := by
        obtain ⟨digits, rfl, hlen, -⟩ := hone
        rintro ⟨digits', he, hlen', -⟩
        rw [← (List.cons.inj he).2, hlen] at hlen'
        cases hlen'
      rw [removeTrailingDashNumber_of_not (not_endsInDashDigits_two hone), chopDigit_append hone]
      exact iff_of_true rfl fun h => hnot h.1
    · rw [removeTrailingDashNumber_append htwo, chopDigit_eq_self_iff]
      exact ⟨fun h hboth => h hboth.2, fun h hends => h ⟨htwo, hends⟩⟩
  · intro name hname
    have hone : ¬ EndsInDashDigits 1 name :=
      fun ⟨b', s', he, hs'⟩ => hname ⟨b', s', he, .inl hs'⟩
    have htwo : ¬ EndsInDashDigits 2 name :=
      fun ⟨b', s', he, hs'⟩ => hname ⟨b', s', he, .inr hs'⟩
    rw [removeTrailingDashNumber_of_not htwo, chopDigit_of_not hone]

end

open scoped PythonText.AsciiTables

theorem isDashDigits_step : IsDashDigits 2 "-23".toList := ⟨"23".toList, rfl, rfl, List.all_eq_true.mp rfl⟩

theorem removeTrailingDashNumber_step :
    (removeTrailingDashNumber ("Step-12".toList ++ "-23".toList) = "Step-12".toList ↔
      ¬ (IsDashDigits 2 "-23".toList ∧ EndsInDashDigits 1 "Step-12".toList)) ∧
      ∀ name : Str, (¬ ∃ b' s', name = b' ++ s' ∧ IsDashNumber s') →
        removeTrailingDashNumber name = name :=
  removeTrailingDashNumber_iff _ _ (.inr isDashDigits_step)

theorem removeTrailingDashNumber_fails :
    IsDashNumber "-23".toList ∧
      removeTrailingDashNumber ("Step-1".toList ++ "-23".toList) = "Step".toList ∧
      removeTrailingDashNumber ("Step-1".toList ++ "-23".toList) ≠ "Step-1".toList :=
  ⟨.inr isDashDigits_step, by decide, by decide⟩

end PluginSdk
