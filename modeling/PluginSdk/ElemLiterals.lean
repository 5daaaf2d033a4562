import PluginSdk.CppLiterals
import PluginSdk.InfoFile

/-! The string literals in the text of `list_elem_definitions`. Names, labels
and units are put between quotes as they are, so a compiler reads them as they
are exactly if they have no quote, no backslash and no line end. Class names and
defaults are pasted as code, where they may open a comment. -/

namespace PluginSdk

open PythonText CppLiterals

variable {F : Type} [PyFloat F]

/-! The printed text again, with its literals marked. -/

def labelItems : List Str → List Item
  | [] => []
  | [label] => [.literal label]
  | label :: label' :: labels =>
    .literal label :: .code ", ".toList :: labelItems (label' :: labels)

def defaultItems (k : Component F) : List Item :=
  match k.defaultVal with
  | none => []
  | some d => [.code ", ".toList, .pasted d.print]

def positionItems (k : Component F) : Except PyError (List Item × Component F) := do
  let cls ← itemOf k.className
  if namesEveryPosition k cls then
    .ok (.code ", \x7b".toList :: labelItems k.posNames ++ [.code "\x7d".toList], k)
  else if cls = "AltParamChoice".toList then
    .ok ([.code (", ".toList ++ strOfInt k.numChoices)], k)
  else if cls = labeledChoice then
    .ok (.code (", ".toList ++ strOfInt k.numChoices) :: defaultItems k ++
      .code "\x7d, \x7b".toList :: labelItems k.posNames ++ [.code "\x7d".toList],
      { k with defaultVal := none })
  else .ok ([], k)

def rangeItems (k : Component F) : List Item :=
  match k.range with
  | none => []
  | some r =>
    [.code (", ".toList ++ PyFloat.str r.minVal ++ ", ".toList ++ PyFloat.str r.maxVal ++
      ", ".toList), .literal r.units]

def elemItems (dpi : Int) (k : Component F) : Except PyError (List Item) := do
  let cls ← itemOf k.className
  let (x, y) ← k.position
  let size ← printSize k dpi
  let (positions, k') ← positionItems k
  .ok ([.code "\t\t".toList, .pasted cls, .code ("\x7b\x7b".toList ++
      (if cls = labeledChoice then "\x7b".toList else []) ++
      toMm dpi x ++ ", ".toList ++ toMm dpi y ++ ", ".toList ++ k.coordRef.text ++ ", ".toList),
    .literal k.displayName, .code ", ".toList, .literal [], .code (size ++ "\x7d".toList)] ++
    positions ++ defaultItems k' ++ rangeItems k' ++ [.code "\x7d,\n".toList])

def listElemItems (elems : List (Component F)) (dpi : Int) : Except PyError (List Item) :=
  match elems with
  | [] => .ok []
  | k :: elems => do
    let first ← elemItems dpi k
    let rest ← listElemItems elems dpi
    .ok (first ++ rest)

theorem removeSuffix_append (suffix s : Str) : removeSuffix suffix (s ++ suffix) = s := by
  rw [removeSuffix, if_pos (List.suffix_append s suffix), List.length_append,
    Nat.add_sub_cancel, List.take_left]

theorem flatMap_separated {labels : List Str} (h : labels ≠ []) (sep : Str) :
    (labels.flatMap fun nm => quoted nm ++ sep) = sep.intercalate (labels.map quoted) ++ sep := by
  induction labels with
  | nil => exact absurd rfl h
  | cons nm labels ih =>
    cases labels with
    | nil => simp
    | cons nm' labels =>
      rw [List.flatMap_cons, ih (List.cons_ne_nil nm' labels)]
      simp only [List.map_cons, List.intercalate_cons_cons, List.append_assoc]

theorem render_labelItems (labels : List Str) :
    render (labelItems labels) = (", ".toList).intercalate (labels.map quoted) := by
  induction labels with
  | nil => rfl
  | cons label labels ih =>
    cases labels with
    | nil => simp [labelItems, render, Item.render, quoted]
    | cons label' labels =>
      rw [List.map_cons, List.map_cons, List.intercalate_cons_cons, ← List.map_cons, ← ih]
      simp [labelItems, render, Item.render, quoted]

theorem texts_labelItems (labels : List Str) : texts (labelItems labels) = labels := by
  induction labels with
  | nil => rfl
  | cons label labels ih =>
    cases labels with
    | nil => rfl
    | cons label' labels => exact congrArg (label :: ·) ih

/-- The separator behind the last label is taken off again. -/
theorem removeSuffix_labels {head : Str} (hhead : ¬ ", ".toList <:+ head) (labels : List Str) :
    removeSuffix ", ".toList (head ++ labels.flatMap fun nm => quoted nm ++ ", ".toList) =
      head ++ (", ".toList).intercalate (labels.map quoted) := by
  by_cases hne : labels = []
  · subst hne
    simp only [List.flatMap_nil, List.append_nil, List.map_nil, List.intercalate_nil]
    rw [removeSuffix, if_neg hhead]
  · rw [flatMap_separated hne, ← List.append_assoc, removeSuffix_append]

theorem render_defaultItems (k : Component F) :
    render (defaultItems k) = (k.defaultVal.map fun d => ", ".toList ++ d.print).getD [] := by
  unfold defaultItems
  cases hd : k.defaultVal with
  | none => rfl
  | some d => simp [render, Item.render]

theorem printPositionNames_eq (k : Component F) :
    printPositionNames k = (positionItems k).map fun p => (render p.1, p.2) := by
  cases hcls : k.className with
  | none => simp only [printPositionNames, positionItems, hcls]; rfl
  | some cls =>
    simp only [printPositionNames, positionItems, hcls, itemOf, bind, Except.bind]
    split_ifs with hswitch hchoice hlabeled
    · rw [← render_labelItems]
      simp [render, Item.render, Except.map]
    · simp [render, Item.render, Except.map]
    · have hhead : ¬ ", ".toList <:+ ", ".toList ++ strOfInt k.numChoices ++ render (defaultItems k) ++
          "\x7d, \x7b".toList := by
        rintro ⟨front, he⟩
        have hlast := congrArg List.reverse he
        rw [List.reverse_append, List.reverse_append] at hlast
        exact absurd (List.cons.inj hlast).1 (by decide)
      have hsuffix := removeSuffix_labels hhead k.posNames
      rw [← render_defaultItems, hsuffix, ← render_labelItems]
      simp [render, Item.render, Except.map]
    · rfl

theorem printDefaultValue_eq (k : Component F) :
    printDefaultValue k = render (defaultItems k ++ rangeItems k) := by
  rw [printDefaultValue, render_append, render_defaultItems]
  congr 1
  unfold rangeItems
  cases hr : k.range with
  | none => rfl
  | some r => simp [render, Item.render, quoted]

theorem elemDefinition_eq (dpi : Int) (k : Component F) :
    elemDefinition dpi k = (elemItems dpi k).map render := by
  simp only [elemDefinition, elemItems, printPositionNames_eq]
  cases itemOf k.className with
  | error e => rfl
  | ok cls =>
    cases k.position with
    | error e => rfl
    | ok xy =>
      cases printSize k dpi with
      | error e => rfl
      | ok size =>
        cases positionItems k with
        | error e => rfl
        | ok p =>
          refine congrArg Except.ok ?_
          obtain ⟨positions, k'⟩ := p
          simp only [printDefaultValue_eq, render_append]
          simp [render, Item.render, quoted]
theorem listElemDefinitions_eq (elems : List (Component F)) (dpi : Int) :
    listElemDefinitions elems dpi = (listElemItems elems dpi).map render := by
  induction elems with
  | nil => rfl
  | cons k elems ih =>
    simp only [listElemDefinitions, listElemItems, elemDefinition_eq, ih]
    cases elemItems dpi k with
    | error e => rfl
    | ok first =>
      cases listElemItems elems dpi with
      | error e => rfl
      | ok rest => exact congrArg Except.ok (render_append first rest).symm

/-! What is put between quotes, and when it can be put there. -/

namespace Component

variable (k : Component F)

def printsLabels : Prop :=
  namesEveryPosition k (k.className.getD []) ∨ k.className.getD [] = labeledChoice

instance : Decidable k.printsLabels := inferInstanceAs (Decidable (_ ∨ _))

def printedLabels : List Str := if k.printsLabels then k.posNames else []

/-- The display name, the empty long name, the labels and the units. -/
def printedTexts : List Str :=
  k.displayName :: [] :: (k.printedLabels ++ (k.range.map ValueRange.units).toList)

/-- What is pasted as code where the default stands. -/
def pastedDefault : Str := (k.defaultVal.map DefaultVal.print).getD []

/-- Class names and defaults are not quoted, so they have to be code of their own. -/
structure SafeToPrint : Prop where
  className : Closes (k.className.getD [])
  defaultVal : Closes k.pastedDefault
  texts : ∀ t ∈ k.printedTexts, IsVerbatim t

theorem safeToPrint_iff :
    k.SafeToPrint ↔ Closes (k.className.getD []) ∧ IsVerbatim k.displayName ∧
      ((∀ label ∈ k.printedLabels, IsVerbatim label) ∧ Closes k.pastedDefault) ∧
      ∀ t ∈ (k.range.map ValueRange.units).toList, IsVerbatim t := by
  have htexts : (∀ t ∈ k.printedTexts, IsVerbatim t) ↔ IsVerbatim k.displayName ∧
      (∀ label ∈ k.printedLabels, IsVerbatim label) ∧
      ∀ t ∈ (k.range.map ValueRange.units).toList, IsVerbatim t := by
    have hempty : IsVerbatim [] := by decide
    rw [printedTexts, List.forall_mem_cons, List.forall_mem_cons, List.forall_mem_append]
    exact ⟨fun h => ⟨h.1, h.2.2⟩, fun h => ⟨h.1, hempty, h.2⟩⟩
  constructor
  · intro h
    obtain ⟨hname, hlabels, hunits⟩ := htexts.mp h.texts
    exact ⟨h.className, hname, ⟨hlabels, h.defaultVal⟩, hunits⟩
  · rintro ⟨hclass, hname, ⟨hlabels, hdefault⟩, hunits⟩
    exact ⟨hclass, hdefault, htexts.mpr ⟨hname, hlabels, hunits⟩⟩

end Component

theorem isAlphanum_or_minus_of_mem_strOfInt {n : Int} {c : Char} (h : c ∈ strOfInt n) :
    c.isAlphanum = true ∨ c = '-' := by
  have hdigits : ∀ m, c ∈ Nat.toDigits 10 m → c.isAlphanum = true := by
    intro m hmem
    have hdigit := Nat.isDigit_of_mem_toDigits (by decide) (by decide) hmem
    exact Bool.or_eq_true_iff.mpr (.inr hdigit)
  cases n with
  | ofNat m => exact .inl (hdigits m h)
  | negSucc m =>
    rcases List.mem_cons.mp h with he | hmem
    · exact .inr he
    · exact .inl (hdigits (m + 1) hmem)

theorem isQuiet_strOfInt (n : Int) : IsQuiet (strOfInt n) := by
  intro c hc
  rcases isAlphanum_or_minus_of_mem_strOfInt hc with halnum | rfl
  · exact isQuiet_of_isAlphanum halnum
  · decide

theorem fronts_labelItems (labels : List Str) :
    Fronts (labelItems labels) (∀ label ∈ labels, IsVerbatim label) := by
  induction labels with
  | nil => exact fronts_nil.congr (by simp)
  | cons label labels ih =>
    cases labels with
    | nil => exact (fronts_literal label).congr (by simp)
    | cons label' labels =>
      have hcomma : Fronts [.code ", ".toList] True := fronts_code (by decide)
      exact ((fronts_literal label).append (hcomma.append ih)).congr (by simp)

theorem texts_defaultItems (k : Component F) : texts (defaultItems k) = [] := by
  unfold defaultItems
  cases k.defaultVal <;> rfl

/-- The default is safe exactly if it closes before the code behind it. -/
theorem fronts_defaultItems (k : Component F) {d : Char} {u : Str} (hu : IsQuiet (d :: u)) :
    Fronts (defaultItems k ++ [.code (d :: u)]) (Closes k.pastedDefault) := by
  unfold defaultItems Component.pastedDefault
  cases k.defaultVal with
  | none =>
    have hempty : Closes [] := by decide
    exact (fronts_code hu).congr (iff_of_true trivial hempty)
  | some v =>
    have hcomma : IsQuiet ",".toList := by decide
    exact fronts_pasted hcomma (.inl rfl) v.print hu

theorem printedLabels_eq {F : Type} {k : Component F} {cls : Str} (h : k.className = some cls) :
    k.printedLabels = if namesEveryPosition k cls ∨ cls = labeledChoice then k.posNames else [] := by
  have hprints : k.printsLabels ↔ namesEveryPosition k cls ∨ cls = labeledChoice := by
    rw [Component.printsLabels, h, Option.getD_some]
  exact if_congr hprints rfl rfl

theorem positionItems_spec {k k' : Component F} {items : List Item}
    (h : positionItems k = .ok (items, k')) :
    texts items = k.printedLabels ∧ k'.range = k.range ∧
      ∀ {d u}, IsQuiet (d :: u) → Fronts (items ++ (defaultItems k' ++ [.code (d :: u)]))
        ((∀ label ∈ k.printedLabels, IsVerbatim label) ∧ Closes k.pastedDefault) := by
  have hopen : Fronts [.code ", \x7b".toList] True := fronts_code (by decide)
  have hclose : Fronts [.code "\x7d".toList] True := fronts_code (by decide)
  cases hcls : k.className with
  | none => simp [positionItems, hcls, itemOf, bind, Except.bind] at h
  | some cls =>
    simp only [positionItems, hcls, itemOf, bind, Except.bind] at h
    have hlabels := printedLabels_eq hcls
    have hnum : IsQuiet (", ".toList ++ strOfInt k.numChoices) :=
      IsQuiet.append (by decide) (isQuiet_strOfInt _)
    split_ifs at h with hswitch hchoice hlabeled <;> cases h
    · rw [hlabels, if_pos (.inl hswitch)]
      refine ⟨by simp [texts, texts_append, texts_labelItems], rfl, fun hu => ?_⟩
      refine (((hopen.append (fronts_labelItems k.posNames)).append hclose).append
        (fronts_defaultItems k hu)).congr ?_
      rw [true_and, and_true]
    · have hother : ¬ (namesEveryPosition k cls ∨ cls = labeledChoice) := by
        rintro (hswitch' | rfl)
        · exact hswitch hswitch'
        · exact absurd hchoice (by decide)
      rw [hlabels, if_neg hother]
      refine ⟨rfl, rfl, fun hu => ?_⟩
      exact ((fronts_code hnum).append (fronts_defaultItems k hu)).congr (by simp)
    · rw [hlabels, if_pos (.inr hlabeled)]
      refine ⟨by simp [texts, texts_append, texts_labelItems, texts_defaultItems], rfl,
        fun {d u} hu => ?_⟩
      have hbetween : IsQuiet ('\x7d' :: ", \x7b".toList) := by decide
      have hitems : .code (", ".toList ++ strOfInt k.numChoices) :: defaultItems k ++
          .code "\x7d, \x7b".toList :: labelItems k.posNames ++ [.code "\x7d".toList] ++
            ([] ++ [.code (d :: u)]) =
          [.code (", ".toList ++ strOfInt k.numChoices)] ++
            (defaultItems k ++ [.code ('\x7d' :: ", \x7b".toList)]) ++ labelItems k.posNames ++
              [.code "\x7d".toList] ++ [.code (d :: u)] := by
        simp
      -- the default is printed already, so no item of it is left
      refine Eq.mpr (congrArg (Fronts · _) hitems) ?_
      refine (((((fronts_code hnum).append (fronts_defaultItems k hbetween)).append
        (fronts_labelItems k.posNames)).append hclose).append (fronts_code hu)).congr ?_
      rw [true_and, and_true, and_true, and_comm]
    · rw [hlabels, if_neg (not_or.mpr ⟨hswitch, hlabeled⟩)]
      exact ⟨rfl, rfl, fun hu => (fronts_defaultItems k hu).congr (by simp)⟩

theorem texts_elemItems {dpi : Int} {k : Component F} {items : List Item}
    (h : elemItems dpi k = .ok items) : texts items = k.printedTexts := by
  simp only [elemItems, bind_eq_ok] at h
  obtain ⟨cls, -, ⟨x, y⟩, -, size, -, ⟨positions, k'⟩, hpos, h⟩ := h
  cases h
  obtain ⟨hlabels, hrange, -⟩ := positionItems_spec hpos
  have hunits : texts (rangeItems k') = (k.range.map ValueRange.units).toList := by
    rw [rangeItems, hrange]
    cases k.range <;> rfl
  simp only [texts, texts_append, hlabels, texts_defaultItems, hunits, List.append_nil]
  rfl

theorem texts_listElemItems {elems : List (Component F)} {dpi : Int} {items : List Item}
    (h : listElemItems elems dpi = .ok items) :
    texts items = elems.flatMap Component.printedTexts := by
  induction elems generalizing items with
  | nil =>
    cases h
    rfl
  | cons k elems ih =>
    simp only [listElemItems, bind_eq_ok] at h
    obtain ⟨first, hfirst, rest, hrest, he⟩ := h
    cases he
    rw [texts_append, texts_elemItems hfirst, ih hrest, List.flatMap_cons]

/-- What Python prints a float with: digits, a point, signs, and the letters of
exponents, infinities and not-a-number. -/
def isFloatChar (c : Char) : Bool := c.isAlphanum || decide (c ∈ ".+-".toList)

section

variable (hstr : ∀ v : F, ∀ c ∈ PyFloat.str v, isFloatChar c = true)

include hstr

theorem isQuiet_str (v : F) : IsQuiet (PyFloat.str v) := by
  intro c hc
  rcases Bool.or_eq_true_iff.mp (hstr v c hc) with halnum | hsign
  · exact isQuiet_of_isAlphanum halnum
  · have hsigns : IsQuiet ".+-".toList := by decide
    exact hsigns c (of_decide_eq_true hsign)

theorem isQuiet_toMm (dpi : Int) (v : F) : IsQuiet (toMm dpi v) :=
  (((IsQuiet.append (by decide) (isQuiet_strOfInt dpi)).append (by decide)).append
    (isQuiet_str hstr v)).append (by decide)

theorem isQuiet_printSize {k : Component F} {dpi : Int} {size : Str}
    (h : printSize k dpi = .ok size) : IsQuiet size := by
  have hcomma : IsQuiet ", ".toList := by decide
  simp only [printSize, bind_eq_ok] at h
  obtain ⟨category, -, h⟩ := h
  split_ifs at h
  · obtain ⟨box, -, h⟩ := bind_eq_ok.mp h
    cases h
    exact ((hcomma.append (isQuiet_toMm hstr dpi box.width)).append hcomma).append
      (isQuiet_toMm hstr dpi box.height)
  · cases h
    exact fun c hc => absurd hc List.not_mem_nil

/-- The positions, the default and the range, up to the end of the element. -/
theorem fronts_values {k k' : Component F} {positions : List Item}
    (h : positionItems k = .ok (positions, k')) :
    Fronts (positions ++ defaultItems k' ++ rangeItems k' ++ [.code "\x7d,\n".toList])
      (((∀ label ∈ k.printedLabels, IsVerbatim label) ∧ Closes k.pastedDefault) ∧
        ∀ t ∈ (k.range.map ValueRange.units).toList, IsVerbatim t) := by
  obtain ⟨-, hrange, hfronts⟩ := positionItems_spec h
  have hend : IsQuiet ('\x7d' :: ",\n".toList) := by decide
  rw [rangeItems, hrange]
  cases k.range with
  | none =>
    rw [List.append_nil, List.append_assoc]
    exact (hfronts hend).congr (by simp)
  | some r =>
    have hrest : IsQuiet (" ".toList ++ PyFloat.str r.minVal ++ ", ".toList ++
        PyFloat.str r.maxVal ++ ", ".toList) :=
      (((IsQuiet.append (by decide) (isQuiet_str hstr _)).append (by decide)).append
        (isQuiet_str hstr _)).append (by decide)
    have hcode : IsQuiet (',' :: (" ".toList ++ PyFloat.str r.minVal ++ ", ".toList ++
        PyFloat.str r.maxVal ++ ", ".toList)) := List.forall_mem_cons.mpr ⟨by decide, hrest⟩
    have hitems := ((hfronts hcode).append (fronts_literal r.units)).append (fronts_code hend)
    simp only [List.append_assoc, List.cons_append, List.nil_append] at hitems ⊢
    exact hitems.congr (by simp)

theorem fronts_elemItems {dpi : Int} {k : Component F} {items : List Item}
    (h : elemItems dpi k = .ok items) : Fronts items k.SafeToPrint := by
  simp only [elemItems, bind_eq_ok] at h
  obtain ⟨cls, hcls, ⟨x, y⟩, -, size, hsize, ⟨positions, k'⟩, hpos, h⟩ := h
  cases h
  have hsome : k.className.getD [] = cls := by
    cases hc : k.className with
    | none => rw [hc] at hcls; cases hcls
    | some cls' => rw [hc] at hcls; cases hcls; rfl
  have hcomma : IsQuiet ", ".toList := by decide
  have hextra : IsQuiet (if cls = labeledChoice then "\x7b".toList else []) := by
    split_ifs <;> decide
  have hcoord : IsQuiet k.coordRef.text := by cases k.coordRef <;> decide
  have hplace := (((((hextra.append (isQuiet_toMm hstr dpi x)).append hcomma).append
    (isQuiet_toMm hstr dpi y)).append hcomma).append hcoord).append hcomma
  have hopen : IsQuiet ('\x7b' :: ("\x7b".toList ++ ((if cls = labeledChoice then "\x7b".toList
      else []) ++ toMm dpi x ++ ", ".toList ++ toMm dpi y ++ ", ".toList ++ k.coordRef.text ++
        ", ".toList))) := List.forall_mem_cons.mpr ⟨by decide, IsQuiet.append (by decide) hplace⟩
  have htab : IsQuiet "\t".toList := by decide
  have hclass := fronts_pasted htab (.inr rfl) cls hopen
  have hlong := (fronts_code hcomma).append ((fronts_literal []).append (fronts_code
    ((isQuiet_printSize hstr hsize).append (by decide : IsQuiet "\x7d".toList))))
  have hitems := (hclass.append ((fronts_literal k.displayName).append hlong)).append
    (fronts_values hstr hpos)
  have hempty : IsVerbatim [] := by decide
  rw [Component.safeToPrint_iff, hsome]
  simp only [List.append_assoc, List.cons_append, List.nil_append] at hitems ⊢
  exact hitems.congr (by simp [hempty, and_assoc])

theorem fronts_listElemItems {elems : List (Component F)} {dpi : Int} {items : List Item}
    (h : listElemItems elems dpi = .ok items) : Fronts items (∀ k ∈ elems, k.SafeToPrint) := by
  induction elems generalizing items with
  | nil =>
    cases h
    exact fronts_nil.congr (by simp)
  | cons k elems ih =>
    simp only [listElemItems, bind_eq_ok] at h
    obtain ⟨first, hfirst, rest, hrest, he⟩ := h
    cases he
    exact ((fronts_elemItems hstr hfirst).append (ih hrest)).congr List.forall_mem_cons.symm

/-- Every literal of the definitions denotes the text that it was made from, and what
stands between them is read as code, exactly if every element is safe to print. -/
theorem listElemDefinitions_literals_iff {elems : List (Component F)} {dpi : Int} {source : Str}
    (h : listElemDefinitions elems dpi = .ok source) :
    ∃ items, listElemItems elems dpi = .ok items ∧ source = render items ∧
      texts items = elems.flatMap Component.printedTexts ∧
      (readCode (.within .blank) source = some (intended items) ↔ ∀ k ∈ elems, k.SafeToPrint) := by
  rw [listElemDefinitions_eq] at h
  cases hitems : listElemItems elems dpi with
  | error e => rw [hitems] at h; cases h
  | ok items =>
    rw [hitems] at h
    cases h
    exact ⟨items, rfl, rfl, texts_listElemItems hitems,
      (readCode_render_iff _ items).trans (fronts_listElemItems hstr hitems).fits_iff⟩

end

/-! Two circles, of which the second has a quote in its name. -/

/-- Numbers that are printed with one decimal, as Python prints 0.5 or 10.0. -/
structure Tenths where
  value : ℚ

instance : PyFloat Tenths where
  ofString s := (PyFloat.ofString s).map Tenths.mk
  ofRat q := ⟨q⟩
  add x y := ⟨x.value + y.value⟩
  sub x y := ⟨x.value - y.value⟩
  div x y := ⟨x.value / y.value⟩
  lt x y := decide (x.value < y.value)
  eq x y := decide (x.value = y.value)
  round3 x := ⟨PyFloat.round3 x.value⟩
  round x := PyFloat.round x.value
  str x := strOfInt ⌊x.value⌋ ++ '.' :: strOfInt (⌊10 * x.value⌋ % 10)

theorem isFloatChar_str (x : Tenths) : ∀ c ∈ PyFloat.str x, isFloatChar c = true := by
  have hint : ∀ n, ∀ c ∈ strOfInt n, isFloatChar c = true := by
    intro n c hc
    rcases isAlphanum_or_minus_of_mem_strOfInt hc with halnum | rfl
    · exact Bool.or_eq_true_iff.mpr (.inl halnum)
    · decide
  exact List.forall_mem_append.mpr ⟨hint _, List.forall_mem_cons.mpr ⟨by decide, hint _⟩⟩

def speedChoice : Component Tenths where
  rawName := "Play_speed!0!1!x@slow@fast".toList
  className := some labeledChoice
  posNames := ["slow".toList, "fast".toList]
  numChoices := 2
  range := some ⟨⟨0⟩, ⟨1⟩, "x".toList⟩
  defaultVal := some (.text "0".toList)
  displayName := "Play speed".toList
  legacyEnumName := "Play_Speed".toList
  enumName := "Play_Speed".toList
  cx := ⟨10⟩
  cy := ⟨20⟩
  shape := .circle
  color := "#808080".toList
  category := some .altParam

theorem listElemDefinitions_literals_sample :
    ∃ source, listElemDefinitions [speedChoice] 72 = .ok source ∧
      ∃ items, listElemItems [speedChoice] 72 = .ok items ∧ source = render items ∧
        texts items = [speedChoice].flatMap Component.printedTexts ∧
        (readCode (.within .blank) source = some (intended items) ↔ ∀ k ∈ [speedChoice], k.SafeToPrint) :=
  ⟨_, rfl, listElemDefinitions_literals_iff isFloatChar_str rfl⟩

def tapeReel : Component ℚ where
  rawName := "Tape 7\" reel".toList
  className := some "GateJackInput4ms".toList
  posNames := []
  numChoices := 0
  range := none
  defaultVal := none
  displayName := "Tape 7\" reel".toList
  legacyEnumName := "Tape_7__Reel".toList
  enumName := "Tape7_Reel".toList
  cx := PyFloat.round3 10
  cy := PyFloat.round3 20
  shape := .circle
  color := "#80ff80".toList
  category := some .input

open scoped PythonText.AsciiTables in
theorem listElemDefinitions_literals_fails :
    componentOf (circleElem "Tape 7\" reel" "fill:#80ff80;") = .ok (some (.gateIn, tapeReel)) ∧
      ∃ source items, listElemDefinitions [tapeReel] 72 = .ok source ∧
        listElemItems [tapeReel] 72 = .ok items ∧
        readCode (.within .blank) source ≠ some (intended items) := by
  have hitems : ∃ items, listElemItems [tapeReel] 72 = .ok items := ⟨_, rfl⟩
  obtain ⟨items, hitems⟩ := hitems
  have hsource : listElemDefinitions [tapeReel] 72 = .ok (render items) := by
    rw [listElemDefinitions_eq, hitems]
    rfl
  refine ⟨rfl, render items, items, hsource, hitems, fun hread => ?_⟩
  have htexts := verbatim_of_fits ((readCode_render_iff _ items).mp hread)
  rw [texts_listElemItems hitems] at htexts
  exact absurd (htexts tapeReel.displayName List.mem_cons_self) (by decide)

end PluginSdk
