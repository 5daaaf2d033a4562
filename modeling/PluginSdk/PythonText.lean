import Mathlib.Data.List.DropRight
import Mathlib.Tactic.IntervalCases

/-! Python strings as lists of code points. What a method does to ASCII is
written out; beyond ASCII it follows the Unicode tables, which are a parameter. -/

namespace PythonText

abbrev Str := List Char

class Unicode where
  isSpace : Char → Bool
  isWord : Char → Bool
  isDigit : Char → Bool
  decimal : Char → Option Nat
  lower : Str → Str
  title : Str → Str

def isAscii (c : Char) : Bool := c.toNat < 128

section

variable [Unicode]

/-- `str.isspace`, and `\s` in a pattern. -/
def isSpace (c : Char) : Bool :=
  if isAscii c then (9 ≤ c.toNat && c.toNat ≤ 13) || (28 ≤ c.toNat && c.toNat ≤ 32)
  else Unicode.isSpace c

def isWord (c : Char) : Bool :=
  if isAscii c then c.isAlphanum || c == '_' else Unicode.isWord c

def isDigit (c : Char) : Bool := if isAscii c then c.isDigit else Unicode.isDigit c

def lower (s : Str) : Str := if s.all isAscii then s.map Char.toLower else Unicode.lower s

def titleFrom (afterLetter : Bool) : Str → Str
  | [] => []
  -- a letter is a capital exactly where no letter stands before it
  | c :: cs => (if afterLetter then c.toLower else c.toUpper) :: titleFrom c.isAlpha cs

def title (s : Str) : Str := if s.all isAscii then titleFrom false s else Unicode.title s

def strip (p : Char → Bool) (s : Str) : Str := (s.dropWhile p).rdropWhile p

/-- `s[-n:]` -/
def lastChars (s : Str) (n : Nat) : Str := s.drop (s.length - n)

/-- `s[-i:-j]` -/
def fromEnd (s : Str) (i j : Nat) : Str := (s.take (s.length - j)).drop (s.length - i)

/-- `str.removesuffix` -/
def removeSuffix (suffix s : Str) : Str :=
  if suffix <:+ s then s.take (s.length - suffix.length) else s

/-- Every maximal run of characters with `p` becomes one `r`. -/
def replaceRuns (p : Char → Bool) (r : Char) (inRun : Bool) : Str → Str
  | [] => []
  | c :: cs =>
    if p c then (if inRun then replaceRuns p r true cs else r :: replaceRuns p r true cs)
    else c :: replaceRuns p r false cs

/-! `int(s, base)` -/

def isIntSpace (c : Char) : Bool :=
  if isAscii c then (9 ≤ c.toNat && c.toNat ≤ 13) || c == ' ' else Unicode.isSpace c

def digitValue (base : Nat) (c : Char) : Option Nat :=
  let value :=
    if isAscii c then
      if c.isDigit then some (c.toNat - 48)
      else if c.isLower then some (c.toNat - 87)
      else if c.isUpper then some (c.toNat - 55)
      else none
    else Unicode.decimal c
  value.filter (· < base)

def readDigits (base : Nat) (acc : Nat) : Str → Option Nat
  | [] => some acc
  -- single underscores may stand between digits
  | '_' :: c :: cs => (digitValue base c).bind fun d => readDigits base (acc * base + d) cs
  | c :: cs => (digitValue base c).bind fun d => readDigits base (acc * base + d) cs

def readNumber (base : Nat) : Str → Option Nat
  | [] => none
  | c :: cs => (digitValue base c).bind fun d => readDigits base d cs

def dropBasePrefix (base : Nat) (s : Str) : Str :=
  if base = 16 then
    match s with
    | '0' :: 'x' :: '_' :: cs | '0' :: 'X' :: '_' :: cs => cs
    | '0' :: 'x' :: cs | '0' :: 'X' :: cs => cs
    | cs => cs
  else s

def maxStrDigits : Nat := 4300

def readUnsigned (base : Nat) (s : Str) : Option Nat :=
  let digits := dropBasePrefix base s
  -- the interpreter refuses to convert longer decimal texts
  if base = 10 ∧ maxStrDigits < (digits.filter (· != '_')).length then none
  else readNumber base digits

def strOfInt : Int → Str
  | .ofNat n => Nat.toDigits 10 n
  | .negSucc n => '-' :: Nat.toDigits 10 (n + 1)

/-- `none` is a `ValueError`. -/
def intOfString (base : Nat) (s : Str) : Option Int :=
  match strip isIntSpace s with
  | '-' :: cs => (readUnsigned base cs).map fun n => -(n : Int)
  | '+' :: cs => (readUnsigned base cs).map fun n => (n : Int)
  | cs => (readUnsigned base cs).map fun n => (n : Int)

end

/-- Parts behind their separators come back in order. -/
theorem splitOn_append_flatMap {sep : Char} {s : Str} {parts : List Str} (hs : sep ∉ s)
    (hparts : ∀ part ∈ parts, sep ∉ part) :
    (s ++ parts.flatMap fun part => sep :: part).splitOn sep = s :: parts := by
  induction parts generalizing s with
  | nil => simpa using List.splitOn_eq_singleton hs
  | cons part parts ih =>
    have hrest := ih (hparts part List.mem_cons_self)
      fun p hp => hparts p (List.mem_cons_of_mem part hp)
    rw [List.flatMap_cons, List.cons_append, List.splitOn_append_cons_self_of_not_mem hs, hrest]

theorem notMem_append_flatMap {sep other : Char} {s : Str} {parts : List Str} (hs : sep ∉ s)
    (hne : sep ≠ other) (hparts : ∀ part ∈ parts, sep ∉ part) :
    sep ∉ s ++ parts.flatMap fun part => other :: part := by
  intro hmem
  rcases List.mem_append.mp hmem with hin | hin
  · exact hs hin
  · obtain ⟨part, hpart, hin⟩ := List.mem_flatMap.mp hin
    rcases List.mem_cons.mp hin with he | hin
    · exact hne he
    · exact hparts part hpart hin

theorem strOfInt_inj {a b : Int} (ha : 0 ≤ a) (hb : 0 ≤ b) (h : strOfInt a = strOfInt b) : a = b := by
  obtain ⟨n, rfl⟩ := Int.eq_ofNat_of_zero_le ha
  obtain ⟨m, rfl⟩ := Int.eq_ofNat_of_zero_le hb
  have hdigits : Nat.toDigits 10 n = Nat.toDigits 10 m := h
  have hn := Nat.ofDigitChars_ten_toDigits (n := n)
  rw [hdigits, Nat.ofDigitChars_ten_toDigits] at hn
  rw [hn]

theorem strip_pair {p : Char → Bool} {c c' : Char} (hc : p c = false) (hc' : p c' = false) :
    strip p [c, c'] = [c, c'] := by
  simp [strip, List.rdropWhile, hc, hc']

/-! Two hexadecimal digits -/

def hexByte (n : Nat) : Str := [Nat.digitChar (n / 16), Nat.digitChar (n % 16)]

section

variable [Unicode]

theorem digitChar_hex {d : Nat} (hd : d < 16) :
    isIntSpace (Nat.digitChar d) = false ∧ digitValue 16 (Nat.digitChar d) = some d ∧
      Nat.digitChar d ∉ ['-', '+', '_', 'x', 'X'] := by
  interval_cases d <;> exact ⟨rfl, rfl, by decide⟩

theorem readUnsigned_pair {c c' : Char} {d d' : Nat} (hc : digitValue 16 c = some d)
    (hc' : digitValue 16 c' = some d') (hx : c' ≠ 'x') (hX : c' ≠ 'X') :
    readUnsigned 16 [c, c'] = some (16 * d + d') := by
  have hdrop : dropBasePrefix 16 [c, c'] = [c, c'] := by
    unfold dropBasePrefix
    split
    · split <;> simp_all
    · rfl
  have hsum : d * 16 + d' = 16 * d + d' := by omega
  simp [readUnsigned, hdrop, readNumber, readDigits, hc, hc', hsum]

theorem intOfString_hexByte {n : Nat} (hn : n < 256) : intOfString 16 (hexByte n) = some (n : Int) := by
  obtain ⟨hspace, hvalue, hno⟩ := digitChar_hex (d := n / 16) (by omega)
  obtain ⟨hspace', hvalue', hno'⟩ := digitChar_hex (d := n % 16) (Nat.mod_lt n (by decide))
  simp only [List.mem_cons, List.not_mem_nil, or_false, not_or] at hno hno'
  have hread := readUnsigned_pair hvalue hvalue' hno'.2.2.2.1 hno'.2.2.2.2
  rw [Nat.div_add_mod] at hread
  unfold intOfString
  rw [hexByte, strip_pair hspace hspace']
  split
  case h_1 he => exact absurd (List.cons.inj he).1 hno.1
  case h_2 he => exact absurd (List.cons.inj he).1 hno.2.1
  case h_3 => rw [hread]; rfl

end

namespace AsciiTables

/-- Nothing beyond ASCII belongs to a class or changes its case. -/
scoped instance : Unicode where
  isSpace _ := false
  isWord _ := false
  isDigit _ := false
  decimal _ := none
  lower s := s
  title s := s

end AsciiTables

open scoped AsciiTables in
example : (intOfString 16 "ff".toList, intOfString 16 "ne".toList, intOfString 10 " 1_0".toList) =
    (some 255, none, some 10) := by decide

end PythonText
