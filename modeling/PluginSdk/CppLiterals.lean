import Mathlib.Data.List.Basic

/-! C++ text as code with string literals in it. A quote opens a literal where
code stands, not in a comment or a character literal. Inside a literal the escape
sequences and the line ends count. -/

namespace CppLiterals

/-- What stands between two quotes, and the string that it denotes. -/
structure Literal where
  spelling : List Char
  value : List Char
  deriving DecidableEq, Repr

/-- The text up to the first literal, then each literal with the text behind it. A
character is marked with whether it stands in code. -/
structure Reading where
  code : List (Char × Bool)
  literals : List (Literal × List (Char × Bool))
  deriving DecidableEq, Repr

def isLineEnd (c : Char) : Bool := c == '\n' || c == '\r'

/-! Comments and character literals. -/

def isWordChar (c : Char) : Bool := c.isAlphanum || c == '_' || decide (127 < c.toNat)

/-- What the characters so far leave a text in the middle of. In a number an apostrophe
separates digits, and `tick` is one of which that is not yet known. -/
inductive Place
  | blank
  | slash
  | word
  | number (exponent : Bool)
  | tick
  | lineComment
  | blockComment (star : Bool)
  | character (empty : Bool)
  | characterEscape
  deriving DecidableEq, Repr

namespace Place

def inCode : Place → Bool
  | .blank | .slash | .word | .number _ => true
  | _ => false

/-- Where a character leads that goes on with nothing before it. -/
def afresh (c : Char) : Place :=
  if c = '\x27' then .character true
  else if c = '/' then .slash
  else if c.isDigit then .number false
  else if isWordChar c then .word
  else .blank

def inCharacter (empty : Bool) (c : Char) : Option Place :=
  if c = '\x27' then if empty then none else some .blank
  else if isLineEnd c then none
  else if c = '\\' then some .characterEscape
  else some (.character false)

/-- `none` where the text is no C++. -/
def step : Place → Char → Option Place
  | .blank, c => some (afresh c)
  | .slash, c =>
    some (if c = '/' then .lineComment else if c = '*' then .blockComment false else afresh c)
  | .word, c => some (if isWordChar c then .word else afresh c)
  | .number exponent, c =>
    some (if isWordChar c then .number (c ∈ "eEpP".toList)
      else if c = '.' then .number false
      else if c = '\x27' then .tick
      else if exponent ∧ (c = '+' ∨ c = '-') then .number false
      else afresh c)
  | .tick, c => if isWordChar c then some (.number false) else inCharacter true c
  | .lineComment, c => some (if isLineEnd c then .blank else .lineComment)
  | .blockComment star, c =>
    some (if star ∧ c = '/' then .blank else .blockComment (c = '*'))
  | .character empty, c => inCharacter empty c
  | .characterEscape, c => if isLineEnd c then none else some (.character false)

end Place

/-- A place, or behind a backslash that may join two lines, or where it has joined them
and a line feed may still belong to the line end. -/
inductive Cursor
  | within (p : Place)
  | backslash (p : Place)
  | joined (p : Place)
  deriving DecidableEq, Repr

namespace Cursor

def enter (p : Place) (c : Char) : Option Cursor :=
  if c = '\\' then some (.backslash p) else (p.step c).map .within

def step : Cursor → Char → Option Cursor
  | .within p, c => enter p c
  | .backslash p, c =>
    if c = '\r' then some (.joined p)
    else if c = '\n' then some (.within p)
    else (p.step '\\').bind fun q => enter q c
  | .joined p, c => if c = '\n' then some (.within p) else enter p c

def inCode : Cursor → Bool
  | .within p | .joined p => p.inCode
  | .backslash p => ((p.step '\\').map Place.inCode).getD false

end Cursor

/-- The characters with their marks, up to where the text leads; `none` if a quote
opens a literal. -/
def scan : Cursor → List Char → Option (List (Char × Bool) × Cursor)
  | cur, [] => some ([], cur)
  | cur, c :: cs =>
    if c = '"' ∧ cur.inCode = true then none
    else (cur.step c).bind fun next =>
      (scan next cs).map fun r => ((c, cur.inCode) :: r.1, r.2)

/-! String literals. -/

def simpleEscapes : List (Char × Char) := [
  ('n', '\n'), ('t', '\t'), ('r', '\r'), ('"', '"'), ('\\', '\\'), ('?', '?'), ('\x27', '\x27'),
  ('a', '\x07'), ('b', '\x08'), ('f', '\x0c'), ('v', '\x0b')]

def digitValue (c : Char) : Nat :=
  if c.isDigit then c.toNat - 48 else if c.isLower then c.toNat - 87 else c.toNat - 55

def isDigitOf (base : Nat) (c : Char) : Bool := c.isAlphanum && decide (digitValue c < base)

def digitRun (base limit : Nat) (s : List Char) : List Char :=
  (s.take limit).takeWhile (isDigitOf base)

def numbered (base : Nat) (digits : List Char) : Char :=
  Char.ofNat (digits.foldl (fun n c => base * n + digitValue c) 0)

/-- The value, and how many characters behind the backslash belong to it. -/
def numericEscape (c : Char) (cs : List Char) : Option (List Char × Nat) :=
  let hex (limit : Nat) := digitRun 16 limit cs
  let octal := digitRun 8 3 (c :: cs)
  if c = 'x' ∧ hex cs.length ≠ [] then
    some ([numbered 16 (hex cs.length)], 1 + (hex cs.length).length)
  else if c = 'u' ∧ (hex 4).length = 4 then some ([numbered 16 (hex 4)], 5)
  else if c = 'U' ∧ (hex 8).length = 8 then some ([numbered 16 (hex 8)], 9)
  else if octal ≠ [] then some ([numbered 8 octal], octal.length)
  else none

def escape : List Char → Option (List Char × Nat)
  | [] => none
  | c :: cs =>
    -- a backslash before a line end joins the two lines
    if c = '\r' ∧ cs.head? = some '\n' then some ([], 2)
    else if isLineEnd c then some ([], 1)
    else
      match simpleEscapes.lookup c with
      | some v => some ([v], 1)
      | none => numericEscape c cs

theorem length_of_numericEscape {c : Char} {cs v : List Char} {n : Nat}
    (h : numericEscape c cs = some (v, n)) : v.length ≤ n := by
  simp only [numericEscape] at h
  split_ifs at h with hx hu hU hoctal <;> cases h
  · exact Nat.le_add_right 1 _
  · exact Nat.le_add_left 1 4
  · exact Nat.le_add_left 1 8
  · exact List.length_pos_iff.mpr hoctal

theorem length_of_escape {s v : List Char} {n : Nat} (h : escape s = some (v, n)) :
    v.length ≤ n := by
  cases s with
  | nil => cases h
  | cons c cs =>
    simp only [escape] at h
    split_ifs at h with hcr hend
    · cases h; exact Nat.zero_le _
    · cases h; exact Nat.zero_le _
    cases hsimple : simpleEscapes.lookup c with
    | some v' =>
      rw [hsimple] at h
      cases h
      exact Nat.le_refl 1
    | none =>
      rw [hsimple] at h
      exact length_of_numericEscape h

def Reading.addCode (c : Char × Bool) (r : Reading) : Reading := { r with code := c :: r.code }

/-- One more character at the front of the literal that comes first. -/
def addSpelling (c : Char) (v : List Char) (ls : List (Literal × List (Char × Bool))) :
    List (Literal × List (Char × Bool)) :=
  ls.modifyHead fun l => (⟨c :: l.1.spelling, v ++ l.1.value⟩, l.2)

mutual

def readCode (cur : Cursor) : List Char → Option Reading
  | [] => some ⟨[], []⟩
  | c :: cs =>
    if c = '"' ∧ cur.inCode = true then (readLiteral 0 cs).map fun ls => ⟨[], ls⟩
    else (cur.step c).bind fun next => (readCode next cs).map (Reading.addCode (c, cur.inCode))

/-- The first `skip` characters belong to an escape sequence that is read already. -/
def readLiteral (skip : Nat) : List Char → Option (List (Literal × List (Char × Bool)))
  | [] => none
  | c :: cs =>
    match skip with
    | n + 1 => (readLiteral n cs).map (addSpelling c [])
    | 0 =>
      if c = '"' then (readCode (.within .blank) cs).map fun r => (⟨[], []⟩, r.code) :: r.literals
      else if isLineEnd c then none
      else if c = '\\' then
        (escape cs).bind fun e => (readLiteral e.2 cs).map (addSpelling c e.1)
      else (readLiteral 0 cs).map (addSpelling c [c])

end

/-! Text that is put together from code and literals. -/

/-- `pasted` is code that comes from elsewhere. -/
inductive Item
  | code (s : List Char)
  | pasted (s : List Char)
  | literal (t : List Char)

def Item.render : Item → List Char
  | .code s => s
  | .pasted s => s
  | .literal t => '"' :: (t ++ ['"'])

def render (items : List Item) : List Char := items.flatMap Item.render

def allCode (s : List Char) : List (Char × Bool) := s.map fun c => (c, true)

/-- How a text reads on its own. -/
def ownMarks (s : List Char) : List (Char × Bool) :=
  ((scan (.within .blank) s).map Prod.fst).getD (allCode s)

/-- How the text is to be read: the literals denote just what was put in them, the code
between them is code, and pasted code reads as it does on its own. -/
def intended : List Item → Reading
  | [] => ⟨[], []⟩
  | .code s :: items => { intended items with code := allCode s ++ (intended items).code }
  | .pasted s :: items => { intended items with code := ownMarks s ++ (intended items).code }
  | .literal t :: items => ⟨[], (⟨t, t⟩, (intended items).code) :: (intended items).literals⟩

/-- What was put between quotes, in order. -/
def texts : List Item → List (List Char)
  | [] => []
  | .code _ :: items | .pasted _ :: items => texts items
  | .literal t :: items => t :: texts items

theorem texts_append (items items' : List Item) :
    texts (items ++ items') = texts items ++ texts items' := by
  induction items with
  | nil => rfl
  | cons item items ih =>
    cases item with
    | code s => exact ih
    | pasted s => exact ih
    | literal t => exact congrArg (t :: ·) ih

theorem render_append (items items' : List Item) :
    render (items ++ items') = render items ++ render items' := List.flatMap_append

def isPlain (c : Char) : Bool := c != '"' && c != '\\' && !isLineEnd c

def IsVerbatim (t : List Char) : Prop := ∀ c ∈ t, isPlain c = true

instance (t : List Char) : Decidable (IsVerbatim t) := List.decidableBAll _ t

/-- Pasted between pieces of code, the text leaves no comment and no character literal
open, and its quotes, if any, open no literal. -/
def Closes (s : List Char) : Prop := (scan (.within .blank) s).map (fun r => r.2.inCode) = some true

instance (s : List Char) : Decidable (Closes s) := inferInstanceAs (Decidable (_ = _))

/-- From where the text has led so far, the items read as they are meant. -/
def Fits : Cursor → List Item → Prop
  | _, [] => True
  | cur, .code s :: items => ∃ next, scan cur s = some (allCode s, next) ∧ Fits next items
  | cur, .pasted s :: items => ∃ next, scan cur s = some (ownMarks s, next) ∧ Fits next items
  | cur, .literal t :: items => cur.inCode = true ∧ IsVerbatim t ∧ Fits (.within .blank) items

/-! Reading. -/

theorem of_addSpelling {c : Char} {v : List Char}
    {found : Option (List (Literal × List (Char × Bool)))} {l : Literal} {code : List (Char × Bool)}
    {ls : List (Literal × List (Char × Bool))}
    (h : found.map (addSpelling c v) = some ((l, code) :: ls)) :
    ∃ l', found = some ((l', code) :: ls) ∧ l.spelling = c :: l'.spelling ∧
      l.value = v ++ l'.value := by
  obtain ⟨found', rfl, he⟩ := Option.map_eq_some_iff.mp h
  cases found' with
  | nil => cases he
  | cons first rest =>
    cases he
    exact ⟨first.1, rfl, rfl, rfl⟩

/-- A literal ends at a quote. Only a literal without escapes is as long as its
value, and then it is written as it is meant. -/
theorem readLiteral_spec {s : List Char} {skip : Nat} {l : Literal} {code : List (Char × Bool)}
    {ls : List (Literal × List (Char × Bool))} (h : readLiteral skip s = some ((l, code) :: ls)) :
    ∃ rest, s = l.spelling ++ '"' :: rest ∧ readCode (.within .blank) rest = some ⟨code, ls⟩ ∧
      l.value.length + skip ≤ l.spelling.length ∧
      (l.value.length = l.spelling.length → IsVerbatim l.spelling) := by
  induction s generalizing skip l with
  | nil => simp [readLiteral] at h
  | cons c cs ih =>
    cases skip with
    | succ n =>
      simp only [readLiteral] at h
      obtain ⟨l', hl', hspell, hvalue⟩ := of_addSpelling h
      obtain ⟨rest, hcs, hrest, hlen, -⟩ := ih hl'
      rw [hspell, hvalue, hcs]
      refine ⟨rest, rfl, hrest, by simp only [List.nil_append, List.length_cons]; omega, ?_⟩
      intro he
      simp only [List.nil_append, List.length_cons] at he
      omega
    | zero =>
      simp only [readLiteral] at h
      split_ifs at h with hquote hend hback
      · obtain ⟨r, hr, he⟩ := Option.map_eq_some_iff.mp h
        cases he
        subst hquote
        exact ⟨cs, rfl, hr, Nat.le_refl _, fun _ x hx => absurd hx List.not_mem_nil⟩
      · obtain ⟨e, he, hread⟩ := Option.bind_eq_some_iff.mp h
        obtain ⟨l', hl', hspell, hvalue⟩ := of_addSpelling hread
        obtain ⟨rest, hcs, hrest, hlen, -⟩ := ih hl'
        have hshort : e.1.length ≤ e.2 := length_of_escape he
        rw [hspell, hvalue, hcs]
        refine ⟨rest, rfl, hrest, by simp only [List.length_append, List.length_cons]; omega, ?_⟩
        intro hsame
        simp only [List.length_append, List.length_cons] at hsame
        omega
      · obtain ⟨l', hl', hspell, hvalue⟩ := of_addSpelling h
        obtain ⟨rest, hcs, hrest, hlen, hplain⟩ := ih hl'
        rw [hspell, hvalue, hcs]
        refine ⟨rest, rfl, hrest, by simpa using hlen, fun hsame x hx => ?_⟩
        rcases List.mem_cons.mp hx with rfl | hx
        · simp [isPlain, hquote, hend, hback]
        · exact hplain (by simpa using hsame) x hx

theorem readLiteral_append {t : List Char} (ht : IsVerbatim t) (s : List Char) :
    readLiteral 0 (t ++ '"' :: s) =
      (readCode (.within .blank) s).map fun r => (⟨t, t⟩, r.code) :: r.literals := by
  induction t with
  | nil => simp [readLiteral]
  | cons c t ih =>
    have hc := ht c List.mem_cons_self
    simp only [isPlain, Bool.and_eq_true, bne_iff_ne, Bool.not_eq_true'] at hc
    obtain ⟨⟨hquote, hback⟩, hend⟩ := hc
    rw [List.cons_append, readLiteral, ih fun x hx => ht x (List.mem_cons_of_mem c hx)]
    simp only [hquote, hback, hend, if_false, Option.map_map, Bool.false_eq_true]
    rfl

theorem readCode_literal_iff {cur : Cursor} {t s : List Char} {r : Reading} :
    readCode cur ('"' :: (t ++ '"' :: s)) = some ⟨[], (⟨t, t⟩, r.code) :: r.literals⟩ ↔
      cur.inCode = true ∧ IsVerbatim t ∧ readCode (.within .blank) s = some r := by
  rw [readCode]
  split_ifs with hopen
  · rw [and_iff_right hopen.2]
    constructor
    · intro h
      obtain ⟨ls, hls, he⟩ := Option.map_eq_some_iff.mp h
      obtain rfl := (Reading.mk.inj he).2
      obtain ⟨rest, hrest, hread, -, hplain⟩ := readLiteral_spec hls
      obtain rfl := (List.cons.inj (List.append_cancel_left hrest)).2
      exact ⟨hplain rfl, hread⟩
    · rintro ⟨ht, hs⟩
      rw [readLiteral_append ht, hs]
      rfl
  · refine iff_of_false (fun h => ?_) fun h => hopen ⟨rfl, h.1⟩
    obtain ⟨next, -, h⟩ := Option.bind_eq_some_iff.mp h
    obtain ⟨r', -, he⟩ := Option.map_eq_some_iff.mp h
    cases he

theorem readCode_append_iff (cur : Cursor) (marks : List (Char × Bool)) (s : List Char)
    (r : Reading) :
    readCode cur (marks.map Prod.fst ++ s) = some { r with code := marks ++ r.code } ↔
      ∃ next, scan cur (marks.map Prod.fst) = some (marks, next) ∧ readCode next s = some r := by
  induction marks generalizing cur with
  | nil => simp [scan]
  | cons mark marks ih =>
    obtain ⟨c, inCode⟩ := mark
    show readCode cur (c :: (marks.map Prod.fst ++ s)) = _ ↔
      ∃ next, scan cur (c :: marks.map Prod.fst) = _ ∧ _
    rw [readCode, scan]
    split_ifs with hopen
    · refine iff_of_false (fun h => ?_) fun ⟨_, h, _⟩ => by cases h
      obtain ⟨ls, -, he⟩ := Option.map_eq_some_iff.mp h
      cases he
    · cases hstep : cur.step c with
      | none => simp
      | some next =>
        rw [Option.bind_some, Option.bind_some]
        constructor
        · intro h
          obtain ⟨⟨code, literals⟩, hr', he⟩ := Option.map_eq_some_iff.mp h
          cases he
          obtain ⟨last, hscan, hread⟩ := (ih next).mp hr'
          exact ⟨last, by rw [hscan]; rfl, hread⟩
        · rintro ⟨last, hscan, hread⟩
          obtain ⟨⟨marks', last'⟩, hscan', he⟩ := Option.map_eq_some_iff.mp hscan
          cases he
          rw [(ih next).mpr ⟨_, hscan', hread⟩]
          rfl

theorem fst_allCode (s : List Char) : (allCode s).map Prod.fst = s := by
  rw [allCode, List.map_map]
  exact List.map_id s

theorem fst_scan {cur next : Cursor} {s : List Char} {marks : List (Char × Bool)}
    (h : scan cur s = some (marks, next)) : marks.map Prod.fst = s := by
  induction s generalizing cur marks with
  | nil =>
    cases h
    rfl
  | cons c cs ih =>
    rw [scan] at h
    split_ifs at h with hopen
    obtain ⟨last, -, h⟩ := Option.bind_eq_some_iff.mp h
    obtain ⟨⟨marks', last'⟩, hscan, he⟩ := Option.map_eq_some_iff.mp h
    cases he
    exact congrArg (c :: ·) (ih hscan)

theorem fst_ownMarks (s : List Char) : (ownMarks s).map Prod.fst = s := by
  rw [ownMarks]
  cases h : scan (.within .blank) s with
  | none => exact fst_allCode s
  | some r => exact fst_scan h

/-- The text reads as it is meant exactly if each item fits where it stands. -/
theorem readCode_render_iff (cur : Cursor) (items : List Item) :
    readCode cur (render items) = some (intended items) ↔ Fits cur items := by
  induction items generalizing cur with
  | nil => exact iff_of_true rfl trivial
  | cons item items ih =>
    cases item with
    | code s =>
      have hh := readCode_append_iff cur (allCode s) (render items) (intended items)
      rw [fst_allCode] at hh
      exact hh.trans (exists_congr fun next => and_congr_right fun _ => ih next)
    | pasted s =>
      have hh := readCode_append_iff cur (ownMarks s) (render items) (intended items)
      rw [fst_ownMarks] at hh
      exact hh.trans (exists_congr fun next => and_congr_right fun _ => ih next)
    | literal t =>
      have hrender : render (.literal t :: items) = '"' :: (t ++ '"' :: render items) := by
        simp [render, Item.render]
      rw [hrender]
      exact readCode_literal_iff.trans (and_congr_right fun _ => and_congr_right fun _ => ih _)

theorem verbatim_of_fits {cur : Cursor} {items : List Item} (h : Fits cur items) :
    ∀ t ∈ texts items, IsVerbatim t := by
  induction items generalizing cur with
  | nil => exact fun t ht => absurd ht List.not_mem_nil
  | cons item items ih =>
    cases item with
    | code s =>
      obtain ⟨next, -, hrest⟩ := h
      exact ih hrest
    | pasted s =>
      obtain ⟨next, -, hrest⟩ := h
      exact ih hrest
    | literal t => exact List.forall_mem_cons.mpr ⟨h.2.1, ih h.2.2⟩

/-! Code that can open neither a literal nor a comment. -/

def isQuiet (c : Char) : Bool := decide (c ∉ ['"', '\x27', '/', '*', '\\'])

def IsQuiet (s : List Char) : Prop := ∀ c ∈ s, isQuiet c = true

instance (s : List Char) : Decidable (IsQuiet s) := List.decidableBAll _ s

theorem IsQuiet.append {s t : List Char} (hs : IsQuiet s) (ht : IsQuiet t) : IsQuiet (s ++ t) :=
  fun c hc => (List.mem_append.mp hc).elim (hs c) (ht c)

theorem isQuiet_of_isAlphanum {c : Char} (h : c.isAlphanum = true) : isQuiet c = true := by
  rw [isQuiet, decide_eq_true_eq]
  intro hc
  simp only [List.mem_cons, List.not_mem_nil, or_false] at hc
  rcases hc with rfl | rfl | rfl | rfl | rfl <;> exact absurd h (by decide)

namespace Place

variable {p : Place} {c : Char}

theorem inCode_afresh (h : c ≠ '\x27') : (afresh c).inCode = true := by
  unfold afresh
  split_ifs <;> first | contradiction | rfl

theorem step_quiet (hp : p.inCode = true) (hc : isQuiet c = true) :
    ∃ q, p.step c = some q ∧ q.inCode = true := by
  simp only [isQuiet, List.mem_cons, List.not_mem_nil, or_false, not_or, decide_eq_true_eq] at hc
  obtain ⟨-, htick, hslash, hstar, -⟩ := hc
  have hafresh := inCode_afresh htick
  cases p with
  | blank => exact ⟨_, rfl, hafresh⟩
  | slash => exact ⟨_, rfl, by rw [if_neg hslash, if_neg hstar]; exact hafresh⟩
  | word =>
    refine ⟨_, rfl, ?_⟩
    split_ifs
    · rfl
    · exact hafresh
  | number exponent =>
    refine ⟨_, rfl, ?_⟩
    split_ifs
    · rfl
    · rfl
    · rfl
    · exact hafresh
  | tick => cases hp
  | lineComment => cases hp
  | blockComment star => cases hp
  | character empty => cases hp
  | characterEscape => cases hp

theorem step_space (hp : p.inCode = true) (hc : c = ' ' ∨ c = '\t') : p.step c = some .blank := by
  cases p with
  | blank => rcases hc with rfl | rfl <;> rfl
  | slash => rcases hc with rfl | rfl <;> rfl
  | word => rcases hc with rfl | rfl <;> rfl
  | number exponent => rcases hc with rfl | rfl <;> cases exponent <;> rfl
  | tick => cases hp
  | lineComment => cases hp
  | blockComment star => cases hp
  | character empty => cases hp
  | characterEscape => cases hp

/-- A stray backslash does not lead into code from elsewhere. -/
theorem inCode_of_backslash (h : ((p.step '\\').map inCode).getD false = true) :
    p.inCode = true := by
  cases p with
  | blank => rfl
  | slash => rfl
  | word => rfl
  | number exponent => rfl
  | tick => cases h
  | lineComment => cases h
  | blockComment star => cases star <;> cases h
  | character empty => cases h
  | characterEscape => cases h

end Place

namespace Cursor

variable {cur : Cursor} {c : Char}

theorem step_quiet (h : cur.inCode = true) (hc : isQuiet c = true) :
    ∃ next, cur.step c = some next ∧ next.inCode = true := by
  have hback : c ≠ '\\' := by
    rintro rfl
    cases hc
  have henter {p : Place} (hp : p.inCode = true) :
      ∃ next, enter p c = some next ∧ next.inCode = true := by
    obtain ⟨q, hq, hcode⟩ := Place.step_quiet hp hc
    exact ⟨.within q, by rw [enter, if_neg hback, hq]; rfl, hcode⟩
  cases cur with
  | within p => exact henter h
  | joined p =>
    rw [step]
    split_ifs
    · exact ⟨_, rfl, h⟩
    · exact henter h
  | backslash p =>
    rw [step]
    split_ifs
    · exact ⟨_, rfl, Place.inCode_of_backslash h⟩
    · exact ⟨_, rfl, Place.inCode_of_backslash h⟩
    · rw [inCode] at h
      cases hq : p.step '\\' with
      | none => rw [hq] at h; cases h
      | some q =>
        rw [hq] at h
        exact henter h

theorem step_space (h : cur.inCode = true) (hc : c = ' ' ∨ c = '\t') :
    cur.step c = some (.within .blank) := by
  have hback : c ≠ '\\' ∧ c ≠ '\r' ∧ c ≠ '\n' := by rcases hc with rfl | rfl <;> decide
  have henter {p : Place} (hp : p.inCode = true) : enter p c = some (.within .blank) := by
    rw [enter, if_neg hback.1, Place.step_space hp hc]
    rfl
  cases cur with
  | within p => exact henter h
  | joined p =>
    rw [step, if_neg hback.2.2]
    exact henter h
  | backslash p =>
    rw [step, if_neg hback.2.1, if_neg hback.2.2]
    rw [inCode] at h
    cases hq : p.step '\\' with
    | none => rw [hq] at h; cases h
    | some q =>
      rw [hq] at h
      exact henter h

end Cursor

theorem scan_cons {cur next : Cursor} {c : Char} (hc : isQuiet c = true)
    (h : cur.step c = some next) (cs : List Char) :
    scan cur (c :: cs) = (scan next cs).map fun r => ((c, cur.inCode) :: r.1, r.2) := by
  have hquote : ¬ (c = '"' ∧ cur.inCode = true) := by
    rintro ⟨rfl, -⟩
    cases hc
  rw [scan, if_neg hquote, h, Option.bind_some]

theorem scan_quiet {cur : Cursor} {s : List Char} (h : cur.inCode = true) (hs : IsQuiet s) :
    ∃ next, scan cur s = some (allCode s, next) ∧ next.inCode = true := by
  induction s generalizing cur with
  | nil => exact ⟨cur, rfl, h⟩
  | cons c cs ih =>
    have hc := hs c List.mem_cons_self
    obtain ⟨next, hnext, hcode⟩ := Cursor.step_quiet h hc
    obtain ⟨last, hlast, hcode'⟩ := ih hcode fun x hx => hs x (List.mem_cons_of_mem c hx)
    refine ⟨last, ?_, hcode'⟩
    rw [scan_cons hc hnext, hlast, h]
    rfl

theorem scan_space {cur : Cursor} {s : List Char} {c : Char} (h : cur.inCode = true)
    (hs : IsQuiet s) (hc : c = ' ' ∨ c = '\t') :
    scan cur (s ++ [c]) = some (allCode (s ++ [c]), .within .blank) := by
  induction s generalizing cur with
  | nil =>
    have hquiet : isQuiet c = true := by rcases hc with rfl | rfl <;> decide
    rw [List.nil_append, scan_cons hquiet (Cursor.step_space h hc), h]
    rfl
  | cons d ds ih =>
    have hd := hs d List.mem_cons_self
    obtain ⟨next, hnext, hcode⟩ := Cursor.step_quiet h hd
    rw [List.cons_append, scan_cons hd hnext, ih hcode fun x hx => hs x (List.mem_cons_of_mem d hx), h]
    rfl

/-! When items fit that stand in front of others. -/

def Fronts (front : List Item) (P : Prop) : Prop :=
  ∀ items Q, (∀ cur, cur.inCode = true → (Fits cur items ↔ Q)) →
    ∀ cur, cur.inCode = true → (Fits cur (front ++ items) ↔ P ∧ Q)

theorem fronts_nil : Fronts [] True := fun _ _ h cur hcur => by
  rw [true_and]
  exact h cur hcur

theorem Fronts.congr {front : List Item} {P Q : Prop} (h : Fronts front P) (hPQ : P ↔ Q) :
    Fronts front Q := propext hPQ ▸ h

theorem Fronts.append {front front' : List Item} {P Q : Prop} (h : Fronts front P)
    (h' : Fronts front' Q) : Fronts (front ++ front') (P ∧ Q) := by
  intro items R hitems cur hcur
  rw [List.append_assoc, h _ _ (h' items R hitems) cur hcur, and_assoc]

theorem fronts_code {s : List Char} (hs : IsQuiet s) : Fronts [.code s] True := by
  intro items Q hitems cur hcur
  obtain ⟨next, hnext, hcode⟩ := scan_quiet hcur hs
  rw [true_and, ← hitems next hcode]
  constructor
  · rintro ⟨next', hscan, hrest⟩
    cases hnext.symm.trans hscan
    exact hrest
  · exact fun h => ⟨next, hnext, h⟩

theorem fronts_literal (t : List Char) : Fronts [.literal t] (IsVerbatim t) := by
  intro items Q hitems cur hcur
  have hrest := hitems (.within .blank) rfl
  exact ⟨fun h => ⟨h.2.1, hrest.mp h.2.2⟩, fun h => ⟨hcur, h.1, hrest.mpr h.2⟩⟩

/-- The code behind pasted code is code exactly if what was pasted closes. -/
theorem fronts_pasted {s : List Char} {c : Char} (hs : IsQuiet s) (hc : c = ' ' ∨ c = '\t')
    (t : List Char) {d : Char} {u : List Char} (hu : IsQuiet (d :: u)) :
    Fronts [.code (s ++ [c]), .pasted t, .code (d :: u)] (Closes t) := by
  intro items Q hitems cur hcur
  have hbefore := scan_space hcur hs hc
  rw [Closes]
  constructor
  · rintro ⟨cur', hscan, next, hpasted, last, hcode, hrest⟩
    cases hbefore.symm.trans hscan
    have hnext : next.inCode = true := by
      rw [scan] at hcode
      split_ifs at hcode with hquote
      obtain ⟨after, -, hcode⟩ := Option.bind_eq_some_iff.mp hcode
      obtain ⟨r, -, he⟩ := Option.map_eq_some_iff.mp hcode
      exact congrArg Prod.snd (List.cons.inj (Prod.mk.inj he).1).1
    obtain ⟨last', hlast, hinCode⟩ := scan_quiet hnext hu
    cases hlast.symm.trans hcode
    exact ⟨by rw [hpasted, Option.map_some, hnext], (hitems last hinCode).mp hrest⟩
  · rintro ⟨hcloses, hQ⟩
    obtain ⟨⟨marks, next⟩, hpasted, hnext⟩ := Option.map_eq_some_iff.mp hcloses
    obtain ⟨last, hcode, hinCode⟩ := scan_quiet hnext hu
    refine ⟨_, hbefore, next, ?_, last, hcode, (hitems last hinCode).mpr hQ⟩
    rw [ownMarks, hpasted]
    rfl

example : ¬ Closes "Knob//".toList ∧ ¬ Closes "Knob/*".toList ∧ ¬ Closes "Bob's".toList ∧
    Closes "Knob/**/".toList ∧ Closes "Knob<'a', 1'000>".toList := by decide

theorem Fronts.fits_iff {items : List Item} {P : Prop} (h : Fronts items P) :
    Fits (.within .blank) items ↔ P := by
  have hh := h [] True (fun _ _ => Iff.rfl) (.within .blank) rfl
  rwa [List.append_nil, and_true] at hh

end CppLiterals
