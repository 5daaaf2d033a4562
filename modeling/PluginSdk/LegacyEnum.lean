import PluginSdk.PanelComponents

/-! `make_legacy_enum`, and the enumerators that a compiler finds in its text.
Legacy names consist of word characters, so none of them breaks up. -/

namespace PluginSdk

open PythonText

variable {F : Type}

def countName (itemPrefix : Str) : Option Str :=
  if itemPrefix = "Knob".toList then some "NumKnobs".toList
  else if itemPrefix = "Switch".toList then some "NumSwitches".toList
  else if itemPrefix = "Input".toList then some "NumInJacks".toList
  else if itemPrefix = "Output".toList then some "NumOutJacks".toList
  else if itemPrefix = "Led".toList then some "NumDiscreteLeds".toList
  else none

def newLine : Str := "\n        ".toList

def makeLegacyEnum (itemPrefix : Str) (elements : List (Component F)) : Str :=
  if elements.isEmpty then []
  else
    "\n    enum \x7b".toList ++
      (elements.flatMap fun k => newLine ++ (itemPrefix ++ k.legacyEnumName) ++ ", ".toList) ++
      ((countName itemPrefix).toList.flatMap fun count => newLine ++ count ++ ",".toList) ++
      "\n    \x7d;".toList

def isBlank (c : Char) : Bool := c == ' ' || c == '\n'

def readBody (body : Str) : List Str :=
  ((body.splitOn ',').map (strip isBlank)).filter (· ≠ [])

/-- The enumerators in the text of an enum; the value of each is its place. -/
def enumerators (source : Str) : List Str :=
  readBody (((source.dropWhile (· != '\x7b')).drop 1).takeWhile (· != '\x7d'))

/-- Nothing that ends an enumerator or the enum, and no blanks. -/
def IsEnumName (s : Str) : Prop := ∀ c ∈ s, c ≠ ',' ∧ c ≠ '\x7d' ∧ isBlank c = false

instance (s : Str) : Decidable (IsEnumName s) := List.decidableBAll _ s

theorem IsEnumName.append {s t : Str} (hs : IsEnumName s) (ht : IsEnumName t) :
    IsEnumName (s ++ t) := by
  intro c hc
  rcases List.mem_append.mp hc with hc | hc
  · exact hs c hc
  · exact ht c hc

theorem isEnumName_of_all {p : Char → Bool} (hp : [',', '\x7d', ' ', '\n'].any p = false)
    {s : Str} (h : ∀ c ∈ s, p c = true) : IsEnumName s := by
  intro c hc
  have hne : ∀ x ∈ [',', '\x7d', ' ', '\n'], c ≠ x := by
    rintro x hx rfl
    exact List.any_eq_false.mp hp c hx (h c hc)
  simp only [List.forall_mem_cons] at hne
  refine ⟨hne.1, hne.2.1, ?_⟩
  simp [isBlank, hne.2.2.1, hne.2.2.2.1]

theorem isEnumName_of_isWord [Unicode] {s : Str} (h : ∀ c ∈ s, isWord c = true) : IsEnumName s :=
  isEnumName_of_all rfl h

theorem isWord_of_otherToUnderscore [Unicode] {s : Str} {c : Char} (hc : c ∈ otherToUnderscore s) :
    isWord c = true := by
  obtain ⟨c', _, rfl⟩ := List.mem_map.mp hc
  by_cases hword : isWord c' = true
  · rw [if_pos hword]
    exact hword
  · rw [if_neg hword]
    rfl

theorem isEnumName_formatAsLegacyEnumItem [Unicode] (s : Str) :
    IsEnumName (formatAsLegacyEnumItem s) := by
  refine isEnumName_of_isWord fun c hc => ?_
  unfold formatAsLegacyEnumItem at hc
  split_ifs at hc
  · obtain rfl := List.mem_singleton.mp hc
    rfl
  · exact isWord_of_otherToUnderscore hc

theorem strip_of_isEnumName {s : Str} (hs : IsEnumName s) : strip isBlank s = s := by
  have hkeep : ∀ t : Str, (∀ c ∈ t, isBlank c = false) → t.dropWhile isBlank = t := by
    intro t ht
    cases t with
    | nil => rfl
    | cons c t => rw [List.dropWhile_cons_of_neg (by simp [ht c List.mem_cons_self])]
  have hfirst := hkeep s fun c hc => (hs c hc).2.2
  have hlast := hkeep s.reverse fun c hc => (hs c (List.mem_reverse.mp hc)).2.2
  rw [strip, hfirst, List.rdropWhile, hlast, List.reverse_reverse]

theorem readBody_blank {c : Char} (hc : isBlank c = true) (s : Str) :
    readBody (c :: s) = readBody s := by
  have hne : (c == ',') = false := by
    rw [beq_eq_false_iff_ne]
    rintro rfl
    cases hc
  unfold readBody
  rw [List.splitOn_cons_eq_if_modifyHead, hne, if_neg (by decide)]
  cases hsplit : s.splitOn ',' with
  | nil => rfl
  | cons first rest =>
    have hstrip : strip isBlank (c :: first) = strip isBlank first := by
      rw [strip, List.dropWhile_cons_of_pos hc]
      rfl
    rw [List.modifyHead_cons, List.map_cons, List.map_cons, hstrip]

theorem readBody_blanks {w : Str} (hw : ∀ c ∈ w, isBlank c = true) (s : Str) :
    readBody (w ++ s) = readBody s := by
  induction w with
  | nil => rfl
  | cons c w ih =>
    rw [List.cons_append, readBody_blank (hw c List.mem_cons_self),
      ih fun c' hc' => hw c' (List.mem_cons_of_mem c hc')]

theorem readBody_name {name : Str} (hname : IsEnumName name) (hne : name ≠ []) (s : Str) :
    readBody (newLine ++ name ++ ",".toList ++ s) = name :: readBody s := by
  have hcomma : ',' ∉ name := fun hmem => (hname ',' hmem).1 rfl
  have hsplit : (name ++ ',' :: s).splitOn ',' = name :: s.splitOn ',' :=
    List.splitOn_append_cons_self_of_not_mem hcomma s
  have hassoc : newLine ++ name ++ ",".toList ++ s = newLine ++ (name ++ ',' :: s) := by
    simp only [List.append_assoc]
    rfl
  have hline : ∀ c ∈ newLine, isBlank c = true := List.all_eq_true.mp rfl
  rw [hassoc, readBody_blanks hline, readBody, hsplit, List.map_cons,
    strip_of_isEnumName hname, List.filter_cons_of_pos (by simpa using hne)]
  rfl

theorem readBody_items {itemPrefix : Str} (hitem : IsEnumName itemPrefix) (hne : itemPrefix ≠ [])
    {elements : List (Component F)} (helems : ∀ k ∈ elements, IsEnumName k.legacyEnumName) (s : Str) :
    readBody ((elements.flatMap fun k =>
      newLine ++ (itemPrefix ++ k.legacyEnumName) ++ ", ".toList) ++ s) =
        (elements.map fun k => itemPrefix ++ k.legacyEnumName) ++ readBody s := by
  induction elements with
  | nil => rfl
  | cons k elements ih =>
    have hrest := ih fun k' hk' => helems k' (List.mem_cons_of_mem k hk')
    have hname : IsEnumName (itemPrefix ++ k.legacyEnumName) :=
      hitem.append (helems k List.mem_cons_self)
    have hcons : itemPrefix ++ k.legacyEnumName ≠ [] := by simp [hne]
    -- the blank behind the comma belongs to the next enumerator
    have hread : ∀ t, readBody (newLine ++ (itemPrefix ++ k.legacyEnumName) ++ ", ".toList ++ t) =
        (itemPrefix ++ k.legacyEnumName) :: readBody t := by
      intro t
      have hcomma : newLine ++ (itemPrefix ++ k.legacyEnumName) ++ ", ".toList ++ t =
          newLine ++ (itemPrefix ++ k.legacyEnumName) ++ ",".toList ++ (' ' :: t) := by
        rw [List.append_assoc, List.append_assoc _ ",".toList]
        rfl
      rw [hcomma, readBody_name hname hcons, readBody_blank rfl]
    rw [List.flatMap_cons, List.append_assoc, hread, hrest]
    rfl

theorem isEnumName_countName {itemPrefix count : Str} (h : countName itemPrefix = some count) :
    IsEnumName count ∧ count ≠ [] := by
  unfold countName at h
  split_ifs at h <;> obtain rfl := Option.some.inj h <;> exact ⟨by decide, by decide⟩

theorem brace_notMem_items {itemPrefix : Str} (hitem : IsEnumName itemPrefix)
    {elements : List (Component F)} (helems : ∀ k ∈ elements, IsEnumName k.legacyEnumName) :
    '\x7d' ∉ elements.flatMap fun k => newLine ++ (itemPrefix ++ k.legacyEnumName) ++ ", ".toList := by
  intro hmem
  obtain ⟨k, hk, hin⟩ := List.mem_flatMap.mp hmem
  rw [List.mem_append, List.mem_append] at hin
  rcases hin with (hline | hname) | hcomma
  · exact absurd hline (by decide)
  · exact (hitem.append (helems k hk) _ hname).2.1 rfl
  · exact absurd hcomma (by decide)

theorem brace_notMem_count (itemPrefix : Str) :
    '\x7d' ∉ (countName itemPrefix).toList.flatMap fun count => newLine ++ count ++ ",".toList := by
  unfold countName
  split_ifs <;> decide

theorem body_of_enum {body : Str} (hbody : '\x7d' ∉ body) :
    ((("\n    enum \x7b".toList ++ body ++ "\n    \x7d;".toList).dropWhile
      (· != '\x7b')).drop 1).takeWhile (· != '\x7d') = body ++ "\n    ".toList := by
  have hopen : ∀ t : Str, ("\n    enum \x7b".toList ++ t).dropWhile (· != '\x7b') = '\x7b' :: t :=
    fun t => rfl
  have hin : ∀ c ∈ body, (c != '\x7d') = true := by
    intro c hc
    rw [bne_iff_ne]
    rintro rfl
    exact hbody hc
  rw [List.append_assoc, hopen, List.drop_one, List.tail_cons, List.takeWhile_append_of_pos hin]
  rfl

/-- The enumerators are the names behind their prefix, in order, and the count. -/
theorem enumerators_makeLegacyEnum {itemPrefix : Str} (hitem : IsEnumName itemPrefix)
    (hne : itemPrefix ≠ []) {elements : List (Component F)} (helems : elements ≠ [])
    (hnames : ∀ k ∈ elements, IsEnumName k.legacyEnumName) :
    enumerators (makeLegacyEnum itemPrefix elements) =
      (elements.map fun k => itemPrefix ++ k.legacyEnumName) ++ (countName itemPrefix).toList := by
  have hempty : elements.isEmpty = false := by simpa using helems
  have hbody : '\x7d' ∉ (elements.flatMap fun k =>
      newLine ++ (itemPrefix ++ k.legacyEnumName) ++ ", ".toList) ++
      (countName itemPrefix).toList.flatMap fun count => newLine ++ count ++ ",".toList := by
    rw [List.mem_append, not_or]
    exact ⟨brace_notMem_items hitem hnames, brace_notMem_count itemPrefix⟩
  rw [enumerators, makeLegacyEnum, hempty, if_neg (by decide),
    List.append_assoc "\n    enum \x7b".toList, body_of_enum hbody, List.append_assoc,
    readBody_items hitem hne hnames]
  congr 1
  cases hname : countName itemPrefix with
  | none => rfl
  | some count =>
    obtain ⟨henum, hcons⟩ := isEnumName_countName hname
    rw [Option.toList_some, List.flatMap_singleton, readBody_name henum hcons]
    rfl

end PluginSdk
