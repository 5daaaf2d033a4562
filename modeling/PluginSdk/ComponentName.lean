import PluginSdk.SvgParseHelpers

/-! Component names: the formatting functions of `util.py`, and the suffixes
that `panel_to_components` takes off a name one separator after the other. -/

namespace PluginSdk

open PythonText

def replaceChar (c : Char) (replacement s : Str) : Str :=
  s.flatMap fun x => if x = c then replacement else [x]

def formatForDisplay (compName : Str) : Str := replaceChar '_' [' '] compName

/-- Underscores are shown as spaces, all else as it is. -/
theorem formatForDisplay_eq (compName : Str) :
    formatForDisplay compName = compName.map fun c => if c = '_' then ' ' else c := by
  induction compName with
  | nil => rfl
  | cons c cs ih =>
    rw [List.map_cons, ← ih]
    by_cases hc : c = '_'
    · simp [formatForDisplay, replaceChar, hc]
    · simp [formatForDisplay, replaceChar, hc]

section

variable [Unicode]

def identifierStart (s : Str) : Str :=
  if (s.head?.map isDigit).getD false then '_' :: s else s

def spellSigns (s : Str) : Str :=
  replaceChar '|' "_OR_".toList (replaceChar '-' ['N'] (replaceChar '+' ['P']
    (title (identifierStart s))))

def otherToUnderscore (s : Str) : Str := s.map fun c => if isWord c then c else '_'

def strToIdentifier (s : Str) : Str :=
  if s = [] then ['_']
  else otherToUnderscore (replaceChar ',' [] (replaceChar '.' [] (replaceChar ' ' [] (spellSigns s))))

def formatAsEnumItem (compName : Str) : Str := strToIdentifier compName

def formatAsLegacyEnumItem (s : Str) : Str :=
  if s = [] then ['_'] else otherToUnderscore (replaceChar ' ' ['_'] (spellSigns s))

def allDigits (s : Str) : Bool := s ≠ [] ∧ s.all isDigit

def removeTrailingDashNumber (name : Str) : Str :=
  -- two digits are tried first; what is left may end in one more
  let name :=
    if fromEnd name 3 2 = ['-'] ∧ allDigits (lastChars name 2) ∧ allDigits (lastChars name 1) then
      name.take (name.length - 3)
    else name
  if fromEnd name 2 1 = ['-'] ∧ allDigits (lastChars name 1) then name.take (name.length - 2)
  else name

def elementName (el : SvgElem) : Option Str :=
  (el.get "data-name".toList).or ((el.get "id".toList).map removeTrailingDashNumber)

end

structure ValueRange (F : Type) where
  minVal : F
  maxVal : F
  units : Str

/-- A number, or a text that is pasted into the header. -/
inductive DefaultVal (F : Type)
  | value (v : F)
  | text (s : Str)

/-- What a name gives to its component; `none` is a key that is not set. -/
structure NamedPart (F : Type) where
  rawName : Str
  className : Option Str
  posNames : List Str
  numChoices : Int
  range : Option (ValueRange F)
  defaultVal : Option (DefaultVal F)
  displayName : Str
  legacyEnumName : Str
  enumName : Str

def splitClass (name : Str) : Str × Option Str :=
  match name.splitOn '#' with
  | bare :: className :: _ => (bare, some className)
  | _ => (name, none)

/-- One position may be a number of choices instead of a label. -/
def splitPositions [Unicode] (name : Str) : Str × List Str × Int :=
  match name.splitOn '@' with
  | [bare, position] =>
    match intOfString 10 position with
    | some numChoices => (bare, [], numChoices)
    | none => (bare, [position], 0)
  | bare :: first :: second :: rest => (bare, first :: second :: rest, 0)
  | _ => (name, [], 0)

variable {F : Type} [PyFloat F]

def splitRange (name : Str) : Except PyError (Str × Option (ValueRange F)) :=
  match name.splitOn '!' with
  | bare :: lo :: hi :: rest => do
    let minVal : F ← floatOf lo
    let maxVal : F ← floatOf hi
    .ok (bare, some ⟨minVal, maxVal, rest.headD []⟩)
  | _ => .ok (name, none)

def namedPart [Unicode] (rawName : Str) : Except PyError (NamedPart F) := do
  let (name, className) := splitClass rawName
  let (name, posNames, numChoices) := splitPositions name
  let (name, range) ← splitRange name
  .ok {
    rawName := rawName
    className := className
    posNames := posNames
    numChoices := numChoices
    range := range
    defaultVal := range.map fun r => .value r.minVal
    displayName := formatForDisplay name
    legacyEnumName := formatAsLegacyEnumItem name
    enumName := formatAsEnumItem name }

/-! The grammar `name[!min!max[!units]][@label]*[#class]`. -/

def IsPlain (s : Str) : Prop := '#' ∉ s ∧ '@' ∉ s ∧ '!' ∉ s

instance (s : Str) : Decidable (IsPlain s) := inferInstanceAs (Decidable (_ ∧ _ ∧ _))

/-- A number as it is written, and as `float` reads it. -/
structure NumberText (F : Type) [PyFloat F] where
  text : Str
  value : F
  plain : IsPlain text
  reads : PyFloat.ofString text = some value

structure RangeText (F : Type) [PyFloat F] where
  lo : NumberText F
  hi : NumberText F
  units : Option Str
  units_plain : ∀ u ∈ units, IsPlain u

structure ComponentName (F : Type) [PyFloat F] where
  bare : Str
  range : Option (RangeText F)
  labels : List Str
  className : Option Str
  bare_plain : IsPlain bare
  labels_plain : ∀ label ∈ labels, IsPlain label
  class_plain : ∀ cls ∈ className, IsPlain cls

namespace RangeText

def parts (r : RangeText F) : List Str := r.lo.text :: r.hi.text :: r.units.toList

def value (r : RangeText F) : ValueRange F := ⟨r.lo.value, r.hi.value, r.units.getD []⟩

theorem parts_plain (r : RangeText F) : ∀ part ∈ r.parts, IsPlain part := by
  intro part hpart
  rcases List.mem_cons.mp hpart with rfl | hpart
  · exact r.lo.plain
  rcases List.mem_cons.mp hpart with rfl | hpart
  · exact r.hi.plain
  exact r.units_plain part (Option.mem_toList.mp hpart)

end RangeText

namespace ComponentName

variable (nm : ComponentName F)

def rangeParts : List Str := (nm.range.map RangeText.parts).getD []

def withRange : Str := nm.bare ++ nm.rangeParts.flatMap fun part => '!' :: part

def withLabels : Str := nm.withRange ++ nm.labels.flatMap fun label => '@' :: label

def render : Str := nm.withLabels ++ nm.className.toList.flatMap fun cls => '#' :: cls

theorem rangeParts_plain : ∀ part ∈ nm.rangeParts, IsPlain part := by
  intro part hpart
  cases hr : nm.range with
  | none => simp [rangeParts, hr] at hpart
  | some r =>
    rw [rangeParts, hr] at hpart
    exact r.parts_plain part hpart

theorem at_notMem_withRange : '@' ∉ nm.withRange :=
  notMem_append_flatMap nm.bare_plain.2.1 (by decide)
    fun part hpart => (nm.rangeParts_plain part hpart).2.1

theorem hash_notMem_withLabels : '#' ∉ nm.withLabels := by
  have hrange : '#' ∉ nm.withRange := notMem_append_flatMap nm.bare_plain.1 (by decide)
    fun part hpart => (nm.rangeParts_plain part hpart).1
  exact notMem_append_flatMap hrange (by decide) fun label hl => (nm.labels_plain label hl).1

theorem splitClass_render : splitClass nm.render = (nm.withLabels, nm.className) := by
  have hsplit : nm.render.splitOn '#' = nm.withLabels :: nm.className.toList :=
    splitOn_append_flatMap nm.hash_notMem_withLabels
      fun cls hcls => (nm.class_plain cls (Option.mem_toList.mp hcls)).1
  unfold splitClass
  rw [hsplit]
  cases hc : nm.className with
  | none => simp [render, hc]
  | some cls => rfl

def positions [Unicode] : List Str × Int :=
  match nm.labels with
  | [label] =>
    match intOfString 10 label with
    | some numChoices => ([], numChoices)
    | none => ([label], 0)
  | labels => (labels, 0)

theorem splitPositions_withLabels [Unicode] :
    splitPositions nm.withLabels = (nm.withRange, nm.positions) := by
  have hsplit : nm.withLabels.splitOn '@' = nm.withRange :: nm.labels :=
    splitOn_append_flatMap nm.at_notMem_withRange fun label hl => (nm.labels_plain label hl).2.1
  unfold splitPositions positions
  rw [hsplit]
  match hl : nm.labels with
  | [] => simp [withLabels, hl]
  | [label] => cases hn : intOfString 10 label <;> simp only [hn]
  | first :: second :: rest => rfl

theorem splitRange_withRange :
    splitRange nm.withRange = .ok (nm.bare, nm.range.map RangeText.value) := by
  have hsplit : nm.withRange.splitOn '!' = nm.bare :: nm.rangeParts :=
    splitOn_append_flatMap nm.bare_plain.2.2 fun part hpart => (nm.rangeParts_plain part hpart).2.2
  unfold splitRange
  rw [hsplit]
  cases hr : nm.range with
  | none => simp [rangeParts, withRange, hr]
  | some r =>
    have hlo : floatOf r.lo.text = .ok r.lo.value := by rw [floatOf, r.lo.reads]
    have hhi : floatOf r.hi.text = .ok r.hi.value := by rw [floatOf, r.hi.reads]
    have hparts : nm.rangeParts = r.lo.text :: r.hi.text :: r.units.toList := by
      rw [rangeParts, hr]
      rfl
    simp only [hparts, hlo, hhi]
    cases hu : r.units <;> simp [RangeText.value, hu] <;> rfl

theorem namedPart_render [Unicode] :
    namedPart nm.render = .ok {
      rawName := nm.render
      className := nm.className
      posNames := nm.positions.1
      numChoices := nm.positions.2
      range := nm.range.map RangeText.value
      defaultVal := (nm.range.map RangeText.value).map fun r => .value r.minVal
      displayName := formatForDisplay nm.bare
      legacyEnumName := formatAsLegacyEnumItem nm.bare
      enumName := formatAsEnumItem nm.bare } := by
  simp only [namedPart, nm.splitClass_render, nm.splitPositions_withLabels, nm.splitRange_withRange]
  rfl

structure Recovered [Unicode] (nm : ComponentName F) (part : NamedPart F) : Prop where
  rawName : part.rawName = nm.render
  className : part.className = nm.className
  choices : ∀ label n, nm.labels = [label] → intOfString 10 label = some n →
    part.posNames = [] ∧ part.numChoices = n
  labels : (∀ label n, nm.labels = [label] → intOfString 10 label ≠ some n) →
    part.posNames = nm.labels ∧ part.numChoices = 0
  range : part.range = nm.range.map RangeText.value
  displayName : part.displayName = formatForDisplay nm.bare
  legacyEnumName : part.legacyEnumName = formatAsLegacyEnumItem nm.bare
  enumName : part.enumName = formatAsEnumItem nm.bare

theorem positions_of_choices [Unicode] {label : Str} {n : Int} (hl : nm.labels = [label])
    (hn : intOfString 10 label = some n) : nm.positions = ([], n) := by
  simp only [positions, hl, hn]

theorem positions_of_labels [Unicode]
    (h : ∀ label n, nm.labels = [label] → intOfString 10 label ≠ some n) :
    nm.positions = (nm.labels, 0) := by
  unfold positions
  match hl : nm.labels with
  | [] => rfl
  | [label] =>
    have hn : intOfString 10 label = none := Option.eq_none_iff_forall_ne_some.mpr fun n => h label n hl
    simp only [hn]
  | first :: second :: rest => rfl

/-- A rendered name is taken apart into exactly the parts it was made of. -/
theorem render_recovered [Unicode] (nm : ComponentName F) (el : SvgElem)
    (h : el.get "data-name".toList = some nm.render) :
    ∃ rawName part, elementName el = some rawName ∧ namedPart rawName = .ok part ∧
      nm.Recovered part := by
  have hname : elementName el = some nm.render := by rw [elementName, h, Option.some_or]
  refine ⟨nm.render, _, hname, nm.namedPart_render, ?_⟩
  constructor
  case choices =>
    intro label n hl hn
    simp only [nm.positions_of_choices hl hn, and_self]
  case labels =>
    intro hl
    simp only [nm.positions_of_labels hl, and_self]
  all_goals rfl

/-- `Cutoff!-1!12.5!Hz@low@high#Knob9mm` -/
def cutoff : ComponentName ℚ where
  bare := "Cutoff".toList
  range := some ⟨⟨"-1".toList, -1, by decide, by decide +kernel⟩,
    ⟨"12.5".toList, 25 / 2, by decide, by decide +kernel⟩, some "Hz".toList, by decide⟩
  labels := ["low".toList, "high".toList]
  className := some "Knob9mm".toList
  bare_plain := by decide
  labels_plain := by decide
  class_plain := by decide

open scoped PythonText.AsciiTables in
theorem cutoff_recovered :
    ∃ rawName part, elementName ⟨svgTag "circle", [("data-name".toList, cutoff.render)], []⟩ =
      some rawName ∧ namedPart (F := ℚ) rawName = .ok part ∧ cutoff.Recovered part :=
  render_recovered cutoff _ rfl

end ComponentName

end PluginSdk
