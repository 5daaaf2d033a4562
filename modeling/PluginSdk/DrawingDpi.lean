import PluginSdk.SvgParseHelpers

/-! The resolution of a drawing in exact arithmetic. The last two numbers of a
viewBox are its width and height; they are taken for its right and lower edge,
so the place of the viewBox shows in the resolution. -/

namespace PluginSdk

open PythonText

/-- Exact numbers; only how `float` reads them from a text is left open. -/
def ExactNumber (_parse : Str → Option ℚ) : Type := ℚ

instance (parse : Str → Option ℚ) : PyFloat (ExactNumber parse) :=
  let exact : PyFloat ℚ := inferInstance
  { exact with ofString := parse }

inductive LengthUnit
  | mm | inch
  deriving DecidableEq, Repr

def LengthUnit.text : LengthUnit → Str
  | .mm => "mm".toList
  | .inch => "in".toList

variable {parse : Str → Option ℚ}

theorem floatOf_eq {s : Str} {q : ℚ} (h : parse s = some q) :
    floatOf (F := ExactNumber parse) s = .ok q := by
  have hs : PyFloat.ofString (F := ExactNumber parse) s = some q := h
  rw [floatOf, hs]

/-- A positive decimal number with its unit. -/
structure LengthText (parse : Str → Option ℚ) where
  number : Str
  unit : LengthUnit
  value : ℚ
  number_chars : ∀ c ∈ number, isDimChar c = true
  reads : parse number = some value
  pos : 0 < value

namespace LengthText

def text (l : LengthText parse) : Str := l.number ++ l.unit.text

def inches (l : LengthText parse) : ℚ :=
  match l.unit with
  | .mm => l.value / (254 / 10)
  | .inch => l.value

theorem inches_pos (l : LengthText parse) : 0 < l.inches := by
  unfold inches
  cases l.unit
  · exact div_pos l.pos (by norm_num)
  · exact l.pos

theorem getDimInches_text (l : LengthText parse) :
    getDimInches (F := ExactNumber parse) (some l.text) = .ok l.inches := by
  have hunit : ∀ c ∈ l.unit.text, (!isDimChar c) = true := by
    cases l.unit <;> exact List.all_eq_true.mp rfl
  have hnumber : l.text.filter isDimChar = l.number := by
    have hkeep : l.number.filter isDimChar = l.number := List.filter_eq_self.mpr l.number_chars
    have hdrop : l.unit.text.filter isDimChar = [] :=
      List.filter_eq_nil_iff.mpr fun c hc => by simpa using hunit c hc
    rw [text, List.filter_append, hkeep, hdrop, List.append_nil]
  have hrest : l.text.filter (fun c => !isDimChar c) = l.unit.text := by
    have hdrop : l.number.filter (fun c => !isDimChar c) = [] :=
      List.filter_eq_nil_iff.mpr fun c hc => by rw [l.number_chars c hc]; decide
    have hkeep : l.unit.text.filter (fun c => !isDimChar c) = l.unit.text :=
      List.filter_eq_self.mpr hunit
    rw [text, List.filter_append, hdrop, hkeep, List.nil_append]
  simp only [getDimInches, hnumber, hrest, floatOf_eq l.reads, inches]
  cases l.unit <;> rfl

end LengthText

/-- One of the four numbers of a viewBox. -/
structure BoxNumber (parse : Str → Option ℚ) where
  text : Str
  value : ℚ
  text_noSpace : ' ' ∉ text
  reads : parse text = some value

structure ViewBox (parse : Str → Option ℚ) where
  x : BoxNumber parse
  y : BoxNumber parse
  width : BoxNumber parse
  height : BoxNumber parse

namespace ViewBox

variable (box : ViewBox parse)

def text : Str :=
  box.x.text ++ [box.y.text, box.width.text, box.height.text].flatMap fun t => ' ' :: t

theorem splitOn_text :
    box.text.splitOn ' ' = [box.x.text, box.y.text, box.width.text, box.height.text] := by
  refine splitOn_append_flatMap box.x.text_noSpace fun t ht => ?_
  simp only [List.mem_cons, List.not_mem_nil, or_false] at ht
  rcases ht with rfl | rfl | rfl
  · exact box.y.text_noSpace
  · exact box.width.text_noSpace
  · exact box.height.text_noSpace

theorem floatAt_text {i : Nat} {b : BoxNumber parse}
    (hb : [box.x, box.y, box.width, box.height][i]? = some b) :
    floatAt (F := ExactNumber parse) (box.text.splitOn ' ') i = .ok b.value := by
  have htext : (box.text.splitOn ' ')[i]? = some b.text := by
    have hmap := congrArg (Option.map BoxNumber.text) hb
    rw [← List.getElem?_map] at hmap
    rw [splitOn_text]
    exact hmap
  rw [floatAt, htext]
  exact floatOf_eq b.reads

end ViewBox

/-- The root of a drawing that states its size, and the numbers stated. -/
structure SizedRoot (parse : Str → Option ℚ) where
  root : SvgNode
  width : LengthText parse
  height : LengthText parse
  box : ViewBox parse
  root_width : root.get "width".toList = some width.text
  root_height : root.get "height".toList = some height.text
  root_viewBox : root.get "viewBox".toList = some box.text

/-- One unit an inch stands for a drawing in points. -/
def dpiOf (n : Int) : Int := if n = 1 then 72 else n

theorem dpiOf_eq_iff (n m : Int) :
    dpiOf m = dpiOf n ↔ m = n ∨ n = 1 ∧ m = 72 ∨ n = 72 ∧ m = 1 := by
  unfold dpiOf
  split_ifs <;> omega

namespace SizedRoot

variable (d : SizedRoot parse)

theorem deduceDpi_eq :
    deduceDpi (ExactNumber parse) d.root =
      .ok (dpiOf (roundHalfEven ((d.box.width.value - d.box.x.value) / d.width.inches))) := by
  have hwidth : PyFloat.eq (F := ExactNumber parse) d.width.inches (PyFloat.ofRat 0) = false :=
    decide_eq_false d.width.inches_pos.ne'
  have hheight : PyFloat.eq (F := ExactNumber parse) d.height.inches (PyFloat.ofRat 0) = false :=
    decide_eq_false d.height.inches_pos.ne'
  have hx := d.box.floatAt_text (i := 0) rfl
  have hy := d.box.floatAt_text (i := 1) rfl
  have hw := d.box.floatAt_text (i := 2) rfl
  have hh := d.box.floatAt_text (i := 3) rfl
  simp only [deduceDpi, d.root_width, d.root_height, d.root_viewBox,
    LengthText.getDimInches_text, bind, Except.bind, hwidth, hheight, hx, hy, hw, hh]
  rfl

/-- The left edge is within half the inches of what `n` units an inch leave
over of the width, or just there for an even `n`. -/
def LeftEdgeNear (n : Int) : Prop :=
  |d.box.x.value - (d.box.width.value - n * d.width.inches)| < d.width.inches / 2 ∨
    |d.box.x.value - (d.box.width.value - n * d.width.inches)| = d.width.inches / 2 ∧ n % 2 = 0

theorem leftEdgeNear_iff (n : Int) :
    d.LeftEdgeNear n ↔
      MeasuresAs (d.box.width.value - d.box.x.value) d.width.inches n := by
  have habs : |d.box.x.value - (d.box.width.value - n * d.width.inches)| =
      |d.box.width.value - d.box.x.value - n * d.width.inches| := by
    rw [abs_sub_comm, sub_right_comm]
  rw [LeftEdgeNear, MeasuresAs, habs]

theorem round_width_sub_eq_iff (n : Int) :
    roundHalfEven ((d.box.width.value - d.box.x.value) / d.width.inches) = n ↔
      d.LeftEdgeNear n := by
  rw [leftEdgeNear_iff]
  exact roundHalfEven_div_eq_iff d.width.inches_pos

/-- Units an inch by the stated width and the width of the viewBox. -/
def unitsPerInch : Int := roundHalfEven (d.box.width.value / d.width.inches)

end SizedRoot

/-- The width of the viewBox is taken for its right edge. The resolution stays
what the stated size gives while the left edge stays near what rounding leaves
over; 1 and 72 units an inch are both 72. -/
theorem deduceDpi_statedSize_iff (d : SizedRoot parse) :
    deduceDpi (ExactNumber parse) d.root = .ok (dpiOf d.unitsPerInch) ↔
      d.LeftEdgeNear d.unitsPerInch ∨ d.unitsPerInch = 1 ∧ d.LeftEdgeNear 72 ∨
        d.unitsPerInch = 72 ∧ d.LeftEdgeNear 1 := by
  rw [d.deduceDpi_eq, Except.ok.injEq, dpiOf_eq_iff]
  simp only [d.round_width_sub_eq_iff]

namespace DrawingSample

abbrev readExact : Str → Option ℚ := PyFloat.ofString

def oneInch : LengthText readExact where
  number := "1".toList
  unit := .inch
  value := 1
  number_chars := List.all_eq_true.mp rfl
  reads := by decide +kernel
  pos := by norm_num

def zero : BoxNumber readExact := ⟨"0".toList, 0, by decide, by decide +kernel⟩

def ten : BoxNumber readExact := ⟨"10".toList, 10, by decide, by decide +kernel⟩

def hundred : BoxNumber readExact := ⟨"100".toList, 100, by decide, by decide +kernel⟩

/-- One inch square, a hundred units wide and high. -/
def squareAt (x : BoxNumber readExact) : SizedRoot readExact where
  root := .element "svg".toList
    [("width".toList, oneInch.text), ("height".toList, oneInch.text),
      ("viewBox".toList, ViewBox.text ⟨x, zero, hundred, hundred⟩)] []
  width := oneInch
  height := oneInch
  box := ⟨x, zero, hundred, hundred⟩
  root_width := rfl
  root_height := rfl
  root_viewBox := rfl

end DrawingSample

open DrawingSample in
theorem deduceDpi_statedSize_fails :
    deduceDpi (ExactNumber readExact) (squareAt ten).root ≠
      .ok (dpiOf (squareAt ten).unitsPerInch) ∧
    deduceDpi (ExactNumber readExact) (squareAt zero).root = .ok 100 ∧
    deduceDpi (ExactNumber readExact) (squareAt ten).root = .ok 90 := by
  have hunits : (squareAt ten).unitsPerInch = 100 :=
    (by decide +kernel : roundHalfEven (100 / 1) = 100)
  have hzero : roundHalfEven ((100 - 0) / 1) = 100 := by decide +kernel
  have hten : roundHalfEven ((100 - 10) / 1) = 90 := by decide +kernel
  have hdpi : deduceDpi (ExactNumber readExact) (squareAt ten).root = .ok 90 := by
    rw [SizedRoot.deduceDpi_eq]
    exact congrArg (fun n => Except.ok (dpiOf n)) hten
  refine ⟨?_, ?_, hdpi⟩
  · rw [hdpi, hunits]
    exact fun h => absurd (Except.ok.inj h) (by decide)
  · rw [SizedRoot.deduceDpi_eq]
    exact congrArg (fun n => Except.ok (dpiOf n)) hzero

end PluginSdk
