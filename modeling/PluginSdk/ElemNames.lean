import PluginSdk.InfoFile

/-! The enumerators of `list_elem_names`. They are identifiers, except where a
digit comes to the front once the characters before it are deleted. -/

namespace PluginSdk

open PythonText

def startsWithDigit (s : Str) : Bool := s.head?.any Char.isDigit

def isIdentifierChar (c : Char) : Bool := c.isAlphanum || c == '_'

def IsIdentifier (s : Str) : Prop :=
  s ≠ [] ∧ (∀ c ∈ s, isIdentifierChar c = true) ∧ startsWithDigit s = false

/-- The characters that leave nothing behind in an identifier. -/
def isRemoved (c : Char) : Bool := c == ' ' || c == '.' || c == ','

/-- Behind one or more deleted characters the name goes on with a digit. -/
def HidesDigit (name : Str) : Prop :=
  ∃ removed d rest, removed ≠ [] ∧ (∀ c ∈ removed, isRemoved c = true) ∧ d.isDigit = true ∧
    name = removed ++ d :: rest

/-! One character of a name in title case. -/

def titled (afterLetter : Bool) (c : Char) : Char := if afterLetter then c.toLower else c.toUpper

theorem forall_ascii {p : Char → Prop} (h : ∀ n < 128, p (Char.ofNat n)) {c : Char}
    (hc : isAscii c = true) : p c := by
  have hn := h c.toNat (of_decide_eq_true hc)
  rwa [Char.ofNat_toNat] at hn

theorem titled_ascii (b : Bool) {c : Char} (hc : isAscii c = true) :
    isAscii (titled b c) = true ∧ isRemoved (titled b c) = isRemoved c ∧
      (titled b c).isDigit = c.isDigit := by
  revert b
  refine forall_ascii (p := fun c => ∀ b, isAscii (titled b c) = true ∧
    isRemoved (titled b c) = isRemoved c ∧ (titled b c).isDigit = c.isDigit) ?_ hc
  decide +kernel

section

variable [Unicode]

/-- What is left of one character after all the substitutions. -/
def spelling (c : Char) : Str :=
  if c = '+' then ['P']
  else if c = '-' then ['N']
  else if c = '|' then "_OR_".toList
  else if isRemoved c then []
  else if isWord c then [c]
  else ['_']

def respell (s : Str) : Str :=
  otherToUnderscore (replaceChar ',' [] (replaceChar '.' [] (replaceChar ' ' []
    (replaceChar '|' "_OR_".toList (replaceChar '-' ['N'] (replaceChar '+' ['P'] s))))))

theorem respell_append (s t : Str) : respell (s ++ t) = respell s ++ respell t := by
  simp only [respell, otherToUnderscore, replaceChar, List.flatMap_append, List.map_append]

theorem respell_char (c : Char) : respell [c] = spelling c := by
  unfold spelling
  split_ifs with hplus hminus hbar hremoved hword
  · subst hplus; rfl
  · subst hminus; rfl
  · subst hbar; rfl
  · simp only [isRemoved, Bool.or_eq_true, beq_iff_eq] at hremoved
    rcases hremoved with (rfl | rfl) | rfl <;> rfl
  · simp only [isRemoved, Bool.or_eq_true, beq_iff_eq, not_or] at hremoved
    simp [respell, replaceChar, otherToUnderscore, hplus, hminus, hbar, hremoved, hword]
  · simp only [isRemoved, Bool.or_eq_true, beq_iff_eq, not_or] at hremoved
    simp [respell, replaceChar, otherToUnderscore, hplus, hminus, hbar, hremoved, hword]

theorem respell_eq (s : Str) : respell s = s.flatMap spelling := by
  induction s with
  | nil => rfl
  | cons c s ih =>
    rw [← List.singleton_append, respell_append, respell_char, ih, List.singleton_append,
      List.flatMap_cons]

theorem strToIdentifier_eq {s : Str} (hs : s ≠ []) :
    strToIdentifier s = (title (identifierStart s)).flatMap spelling := by
  rw [strToIdentifier, if_neg hs, ← respell_eq]
  rfl

theorem spelling_identifierChar {c : Char} (hc : isAscii c = true) :
    ∀ x ∈ spelling c, isIdentifierChar x = true := by
  unfold spelling
  split_ifs with hplus hminus hbar hremoved hword
  · exact List.all_eq_true.mp rfl
  · exact List.all_eq_true.mp rfl
  · exact List.all_eq_true.mp rfl
  · simp
  · intro x hx
    obtain rfl := List.mem_singleton.mp hx
    rwa [isWord, if_pos hc] at hword
  · exact List.all_eq_true.mp rfl

theorem isWord_of_isDigit {c : Char} (hc : c.isDigit = true) : isWord c = true := by
  have hascii : isAscii c = true := by
    simp only [Char.isDigit, Bool.and_eq_true, decide_eq_true_eq, UInt32.le_iff_toNat_le] at hc
    have hnine : c.toNat ≤ 57 := hc.2
    exact decide_eq_true (by omega)
  rw [isWord, if_pos hascii, Char.isAlphanum, hc, Bool.or_true, Bool.true_or]

theorem of_isRemoved {c : Char} (hc : isRemoved c = true) :
    spelling c = [] ∧ c.isDigit = false := by
  simp only [isRemoved, Bool.or_eq_true, beq_iff_eq] at hc
  rcases hc with (rfl | rfl) | rfl <;> exact ⟨rfl, rfl⟩

/-- Only a digit is spelled with a digit at the front. -/
theorem startsWithDigit_spelling {c : Char} (hc : isRemoved c = false) (s : Str) :
    startsWithDigit (spelling c ++ s) = c.isDigit := by
  unfold spelling
  split_ifs with hplus hminus hbar hremoved hword
  · subst hplus; rfl
  · subst hminus; rfl
  · subst hbar; rfl
  · rw [hc] at hremoved; cases hremoved
  · rfl
  · by_contra hdigit
    exact hword (isWord_of_isDigit (Bool.eq_true_of_not_eq_false fun h => hdigit h.symm))

theorem isIdentifierChar_titleFrom {b : Bool} {s : Str} (hs : s.all isAscii = true) :
    ∀ x ∈ (titleFrom b s).flatMap spelling, isIdentifierChar x = true := by
  induction s generalizing b with
  | nil => simp [titleFrom]
  | cons c s ih =>
    rw [List.all_cons, Bool.and_eq_true] at hs
    intro x hx
    rw [titleFrom, List.flatMap_cons, List.mem_append] at hx
    rcases hx with hx | hx
    · exact spelling_identifierChar (titled_ascii b hs.1).1 x hx
    · exact ih hs.2 x hx

theorem startsWithDigit_titleFrom {b : Bool} {s : Str} (hs : s.all isAscii = true) :
    startsWithDigit ((titleFrom b s).flatMap spelling) = true ↔
      ∃ removed d rest, (∀ c ∈ removed, isRemoved c = true) ∧ d.isDigit = true ∧
        s = removed ++ d :: rest := by
  induction s generalizing b with
  | nil => simp [titleFrom, startsWithDigit]
  | cons c s ih =>
    rw [List.all_cons, Bool.and_eq_true] at hs
    obtain ⟨-, hsame, hdigit⟩ := titled_ascii b hs.1
    have hcons : (titleFrom b (c :: s)).flatMap spelling =
        spelling (titled b c) ++ (titleFrom c.isAlpha s).flatMap spelling := rfl
    cases hc : isRemoved c with
    | true =>
      rw [hcons, (of_isRemoved (hsame.trans hc)).1, List.nil_append, ih hs.2]
      constructor
      · rintro ⟨removed, d, rest, hremoved, hd, rfl⟩
        exact ⟨c :: removed, d, rest, by simpa [hc] using hremoved, hd, rfl⟩
      · rintro ⟨removed, d, rest, hremoved, hd, he⟩
        cases removed with
        | nil =>
          obtain ⟨rfl, -⟩ := List.cons.inj he
          rw [(of_isRemoved hc).2] at hd
          cases hd
        | cons c' removed =>
          obtain ⟨rfl, rfl⟩ := List.cons.inj he
          exact ⟨removed, d, rest, fun x hx => hremoved x (List.mem_cons_of_mem c hx), hd, rfl⟩
    | false =>
      rw [hcons, startsWithDigit_spelling (hsame.trans hc), hdigit]
      constructor
      · exact fun hd => ⟨[], c, s, by simp, hd, rfl⟩
      · rintro ⟨removed, d, rest, hremoved, hd, he⟩
        cases removed with
        | nil =>
          obtain ⟨rfl, -⟩ := List.cons.inj he
          exact hd
        | cons c' removed =>
          obtain ⟨rfl, -⟩ := List.cons.inj he
          rw [hremoved c List.mem_cons_self] at hc
          cases hc

theorem strToIdentifier_spec {name : Str} (hname : name.all isAscii = true) :
    (∀ x ∈ strToIdentifier name, isIdentifierChar x = true) ∧
      (startsWithDigit (strToIdentifier name) = true ↔ HidesDigit name) := by
  cases name with
  | nil =>
    have hempty : startsWithDigit (strToIdentifier []) = false := rfl
    refine ⟨List.all_eq_true.mp rfl, iff_of_false (by rw [hempty]; decide) ?_⟩
    rintro ⟨removed, d, rest, -, -, -, he⟩
    cases removed <;> cases he
  | cons c name =>
    have hc : isAscii c = true := by
      rw [List.all_cons, Bool.and_eq_true] at hname
      exact hname.1
    have hdigit : isDigit c = c.isDigit := by rw [isDigit, if_pos hc]
    rw [strToIdentifier_eq (List.cons_ne_nil c name)]
    cases hd : c.isDigit with
    | true =>
      -- the underscore in front stays there
      have hstart : identifierStart (c :: name) = '_' :: c :: name := by
        rw [identifierStart, List.head?_cons, Option.map_some, hdigit, hd]
        rfl
      have hall : ('_' :: c :: name).all isAscii = true := by rw [List.all_cons, hname]; rfl
      rw [hstart, title, if_pos hall]
      refine ⟨isIdentifierChar_titleFrom hall, iff_of_false (by simp [titleFrom]; rfl) ?_⟩
      rintro ⟨removed, d, rest, hne, hremoved, -, he⟩
      obtain ⟨c', removed, rfl⟩ := List.exists_cons_of_ne_nil hne
      obtain ⟨rfl, -⟩ := List.cons.inj he
      rw [(of_isRemoved (hremoved c List.mem_cons_self)).2] at hd
      cases hd
    | false =>
      have hstart : identifierStart (c :: name) = c :: name := by
        rw [identifierStart, List.head?_cons, Option.map_some, hdigit, hd]
        rfl
      rw [hstart, title, if_pos hname]
      refine ⟨isIdentifierChar_titleFrom hname, (startsWithDigit_titleFrom hname).trans ?_⟩
      constructor
      · rintro ⟨removed, d, rest, hremoved, hdig, he⟩
        refine ⟨removed, d, rest, ?_, hremoved, hdig, he⟩
        rintro rfl
        obtain ⟨rfl, -⟩ := List.cons.inj he
        rw [hdig] at hd
        cases hd
      · rintro ⟨removed, d, rest, -, hremoved, hdig, he⟩
        exact ⟨removed, d, rest, hremoved, hdig, he⟩

/-- The name in front of the category, whether the category was found or added. -/
theorem elemName_split (enumName : Str) (category : Category) :
    ∃ stem, elemName enumName category.text = stem ++ category.text ∧
      (enumName = stem ++ lower category.text ∨ enumName = stem ++ category.text ∨
        enumName = stem) := by
  unfold elemName
  split_ifs with hlower hsuffix
  · obtain ⟨stem, rfl⟩ := hlower
    have hlen : (lower category.text).length = category.text.length := by cases category <;> rfl
    refine ⟨stem, ?_, .inl rfl⟩
    rw [List.length_append, hlen, Nat.add_sub_cancel, List.take_left]
  · obtain ⟨stem, rfl⟩ := hsuffix
    exact ⟨stem, rfl, .inr (.inl rfl)⟩
  · exact ⟨enumName, rfl, .inr (.inr rfl)⟩

theorem startsWithDigit_elemName (enumName : Str) (category : Category) :
    startsWithDigit (elemName enumName category.text) = startsWithDigit enumName := by
  obtain ⟨stem, hname, hstem⟩ := elemName_split enumName category
  rw [hname]
  cases stem with
  | nil =>
    -- only the category itself, which starts with a letter
    rcases hstem with rfl | rfl | rfl <;> cases category <;> rfl
  | cons c stem => rcases hstem with rfl | rfl | rfl <;> rfl

theorem isIdentifierChar_elemName {enumName : Str} (category : Category)
    (h : ∀ x ∈ enumName, isIdentifierChar x = true) :
    ∀ x ∈ elemName enumName category.text, isIdentifierChar x = true := by
  obtain ⟨stem, hname, hstem⟩ := elemName_split enumName category
  have hcategory : ∀ x ∈ category.text, isIdentifierChar x = true := by
    cases category <;> exact List.all_eq_true.mp rfl
  have hsub : ∀ x ∈ stem, x ∈ enumName := by
    intro x hx
    rcases hstem with rfl | rfl | rfl
    · exact List.mem_append_left _ hx
    · exact List.mem_append_left _ hx
    · exact hx
  rw [hname]
  intro x hx
  rcases List.mem_append.mp hx with hx | hx
  · exact h x (hsub x hx)
  · exact hcategory x hx

variable {F : Type}

/-- A component with a category, and the name that its enumerator is made of. -/
structure NamedElem (F : Type) [Unicode] where
  elem : Component F
  name : Str
  category : Category
  name_ascii : name.all isAscii = true
  elem_enumName : elem.enumName = formatAsEnumItem name
  elem_category : elem.category = some category

def NamedElem.enumerator (k : NamedElem F) : Str := elemName k.elem.enumName k.category.text

def IsEnumeratorFor (category : Category) (e : Str) : Prop :=
  IsIdentifier e ∧ category.text <:+ e

namespace NamedElem

variable (k : NamedElem F)

theorem enumerator_chars : ∀ x ∈ k.enumerator, isIdentifierChar x = true := by
  have hname := (strToIdentifier_spec k.name_ascii).1
  refine isIdentifierChar_elemName k.category ?_
  rw [k.elem_enumName]
  exact hname

theorem suffix_enumerator : k.category.text <:+ k.enumerator := by
  obtain ⟨stem, hname, -⟩ := elemName_split k.elem.enumName k.category
  exact ⟨stem, hname.symm⟩

theorem enumerator_ne_nil : k.enumerator ≠ [] := by
  intro he
  have hsuffix := k.suffix_enumerator
  rw [he, List.suffix_nil] at hsuffix
  cases hcat : k.category <;> rw [hcat] at hsuffix <;> cases hsuffix

theorem enumerator_iff : IsEnumeratorFor k.category k.enumerator ↔ ¬ HidesDigit k.name := by
  have hdigit := (strToIdentifier_spec k.name_ascii).2
  have hstart : startsWithDigit k.enumerator = startsWithDigit (strToIdentifier k.name) := by
    rw [enumerator, startsWithDigit_elemName, k.elem_enumName, formatAsEnumItem]
  constructor
  · intro h hhides
    have hfalse := h.1.2.2
    rw [hstart, hdigit.mpr hhides] at hfalse
    cases hfalse
  · intro hhides
    have hfalse : startsWithDigit k.enumerator = false := by
      rw [hstart, ← Bool.not_eq_true]
      exact fun h => hhides (hdigit.mp h)
    exact ⟨⟨k.enumerator_ne_nil, k.enumerator_chars, hfalse⟩, k.suffix_enumerator⟩

end NamedElem

theorem listElemNames_eq (elems : List (NamedElem F)) :
    listElemNames (elems.map (·.elem)) =
      .ok (elems.flatMap fun k => newLine ++ k.enumerator ++ ",".toList) := by
  induction elems with
  | nil => rfl
  | cons k elems ih =>
    simp only [List.map_cons, listElemNames, k.elem_category, itemOf, ih, List.flatMap_cons]
    rfl

theorem readBody_enumerators (elems : List (NamedElem F)) :
    readBody (elems.flatMap fun k => newLine ++ k.enumerator ++ ",".toList) =
      elems.map NamedElem.enumerator := by
  induction elems with
  | nil => rfl
  | cons k elems ih =>
    rw [List.flatMap_cons, readBody_name (isEnumName_of_all rfl k.enumerator_chars)
      k.enumerator_ne_nil, ih, List.map_cons]

/-- Every enumerator is an identifier that ends in its category, exactly where
the name does not hide a digit behind characters that are deleted. -/
theorem listElemNames_identifiers_iff (elems : List (NamedElem F)) :
    ∃ source, listElemNames (elems.map (·.elem)) = .ok source ∧
      List.Forall₂ (fun k e => IsEnumeratorFor k.category e ↔ ¬ HidesDigit k.name) elems
        (readBody source) := by
  refine ⟨_, listElemNames_eq elems, ?_⟩
  rw [readBody_enumerators, List.forall₂_map_right_iff]
  exact List.forall₂_same.mpr fun k _ => k.enumerator_iff

end

open scoped PythonText.AsciiTables

def clockIn : NamedElem ℚ where
  elem := {
    rawName := "Clock".toList
    className := some "AnalogJackInput4ms".toList
    posNames := []
    numChoices := 0
    range := none
    defaultVal := none
    displayName := "Clock".toList
    legacyEnumName := "Clock".toList
    enumName := "Clock".toList
    cx := PyFloat.round3 10
    cy := PyFloat.round3 20
    shape := .circle
    color := "#00ff00".toList
    category := some .input }
  name := "Clock".toList
  category := .input
  name_ascii := rfl
  elem_enumName := rfl
  elem_category := rfl

theorem listElemNames_identifiers_sample :
    componentOf (circleElem "Clock" "fill:#00ff00;") = .ok (some (.analogIn, clockIn.elem)) ∧
      ∃ source, listElemNames [clockIn.elem] = .ok source ∧
        List.Forall₂ (fun k e => IsEnumeratorFor k.category e ↔ ¬ HidesDigit k.name) [clockIn]
          (readBody source) :=
  ⟨rfl, listElemNames_identifiers_iff [clockIn]⟩

theorem listElemNames_identifiers_fails :
    ∃ k, componentOf (F := ℚ) (circleElem ".1Hz" "fill:#00ff00;") = .ok (some (.analogIn, k)) ∧
      k.enumName = formatAsEnumItem ".1Hz".toList ∧ k.category = some .input ∧
      listElemNames [k] = .ok (newLine ++ "1HzIn,".toList) ∧
      ¬ IsEnumeratorFor .input "1HzIn".toList := by
  refine ⟨_, rfl, rfl, rfl, rfl, fun h => ?_⟩
  cases h.1.2.2

end PluginSdk
