import PluginSdk.InfoFile

/-! `createinfo.py` as it is run, on one file and on a directory. For a
directory the brand is passed where the legacy flag belongs. -/

namespace PluginSdk

open PythonText

/-- What the script asks of the file system. -/
structure Files where
  isFile : Str → Bool
  isDir : Str → Bool
  dirname : Str → Str
  join : Str → Str → Str
  normpath : Str → Str
  /-- the `*.svg` files of a directory, in the order of the file system -/
  svgFiles : Str → List Str
  parse : Str → Except PyError SvgNode
  /-- from the environment, or else the directory in the repository -/
  infoDir : Str

structure InfoHeader where
  fileName : Str
  text : Str
  slug : Str

structure Args where
  input : Str
  outdir : Str
  brand : Str
  legacy : PyArg := .false

/-- The headers that were written, by their drawing, and what ended the run. -/
structure Run where
  written : List (Str × InfoHeader)
  error : Option PyError

/-- One call after the other; an exception ends the run. -/
def runCalls (call : Str → Except PyError (Option InfoHeader)) : List Str → Run
  | [] => ⟨[], none⟩
  | svg :: svgs =>
    match call svg with
    | .error e => ⟨[], some e⟩
    | .ok header =>
      let run := runCalls call svgs
      { run with written := header.toList.map (svg, ·) ++ run.written }

/-- The header that a run wrote for a drawing, if it wrote one. -/
def Run.header (run : Run) (svg : Str) : Option InfoHeader := run.written.lookup svg

section

variable {call : Str → Except PyError (Option InfoHeader)} {svgs : List Str} {svg : Str}

theorem mem_written {header : InfoHeader} (h : (svg, header) ∈ (runCalls call svgs).written) :
    call svg = .ok (some header) ∧ ∃ before after, svgs = before ++ svg :: after ∧
      ∀ s ∈ before, ∀ e, call s ≠ .error e := by
  induction svgs with
  | nil => cases h
  | cons first svgs ih =>
    rw [runCalls] at h
    cases hcall : call first with
    | error e => rw [hcall] at h; cases h
    | ok found =>
      rw [hcall] at h
      rcases List.mem_append.mp h with h | h
      · obtain ⟨header', hfound, he⟩ := List.mem_map.mp h
        cases he
        rw [Option.mem_toList.mp hfound] at hcall
        exact ⟨hcall, [], svgs, rfl, fun s hs => absurd hs List.not_mem_nil⟩
      · obtain ⟨hsvg, before, after, rfl, hbefore⟩ := ih h
        refine ⟨hsvg, first :: before, after, rfl, fun s hs e he => ?_⟩
        rcases List.mem_cons.mp hs with rfl | hs
        · cases hcall.symm.trans he
        · exact hbefore s hs e he

theorem mem_of_header {run : Run} {header : InfoHeader} (h : run.header svg = some header) :
    (svg, header) ∈ run.written := by
  obtain ⟨before, after, he, -⟩ := List.lookup_eq_some_iff.mp h
  rw [he]
  exact List.mem_append_right before List.mem_cons_self

theorem header_runCalls_cons {first : Str} {found : Option InfoHeader} (h : call first = .ok found) :
    (runCalls call (first :: svgs)).header svg =
      if svg = first then found.or ((runCalls call svgs).header svg)
      else (runCalls call svgs).header svg := by
  rw [runCalls, h]
  cases found with
  | none => simp [Run.header]
  | some header =>
    by_cases he : svg = first
    · simp [Run.header, he]
    · simp [Run.header, he, List.lookup_cons, beq_eq_false_iff_ne.mpr he]

/-- If no call before it raises, a drawing has the header that its own call writes. -/
theorem header_runCalls (before after : List Str)
    (h : ∀ s ∈ before, ∀ e, call s ≠ .error e) :
    (runCalls call (before ++ svg :: after)).header svg = (call svg).toOption.join := by
  induction before with
  | nil =>
    cases hcall : call svg with
    | error e =>
      rw [List.nil_append, runCalls, hcall]
      rfl
    | ok found =>
      rw [List.nil_append, header_runCalls_cons hcall, if_pos rfl]
      cases found with
      | some header => rfl
      | none =>
        cases hrest : (runCalls call after).header svg with
        | none => rfl
        | some header => cases hcall.symm.trans (mem_written (mem_of_header hrest)).1
  | cons first before ih =>
    have hrest := ih fun s hs => h s (List.mem_cons_of_mem first hs)
    cases hcall : call first with
    | error e => exact absurd hcall (h first List.mem_cons_self e)
    | ok found =>
      rw [List.cons_append, header_runCalls_cons hcall, hrest]
      split_ifs with he
      · rw [he, hcall]
        cases found <;> rfl
      · rfl

end

section

variable [Unicode] (F : Type) [PyFloat F]

/-- `none` where the script gives up without a header. -/
def createInfoFile (files : Files) (svgFilename : Str) (infoFilePath : Option Str := none)
    (doLegacy : PyArg := .false) (brand : Str := "4ms".toList) :
    Except PyError (Option InfoHeader) :=
  let given := infoFilePath.getD files.infoDir
  let outdir :=
    if files.isDir given then given
    else files.normpath (files.join (files.dirname svgFilename) given)
  if files.isDir outdir && files.isFile svgFilename then do
    let tree ← files.parse svgFilename
    let components : Components F ← panelToComponents tree
    let text ← componentsToInfofile components doLegacy brand
    .ok (some {
      fileName := files.join outdir (components.slug ++ "_info.hh".toList)
      text
      slug := components.slug })
  else .ok none

def outdirOf (files : Files) (args : Args) : Str :=
  if files.isFile args.outdir then files.dirname args.outdir else args.outdir

def createinfo (files : Files) (args : Args) : Run :=
  let outdir := outdirOf files args
  if files.isFile args.input then
    runCalls (createInfoFile F files · (some outdir) args.legacy args.brand) [args.input]
  else if files.isDir args.input then
    runCalls (createInfoFile F files · (some outdir) (.text args.brand)) (files.svgFiles args.input)
  else ⟨[], none⟩

/-- The script goes on to read the drawing. -/
def Found (files : Files) (given svg : Str) : Prop :=
  files.isDir (if files.isDir given then given
    else files.normpath (files.join (files.dirname svg) given)) = true ∧ files.isFile svg = true

/-- The drawing can be read and its text made. -/
def Readable (files : Files) (svg : Str) : Prop :=
  ∃ tree, ∃ components : Components F, ∃ definitions names, files.parse svg = .ok tree ∧
    panelToComponents tree = .ok components ∧
    listElemDefinitions components.elements components.dpi = .ok definitions ∧
    listElemNames components.elements = .ok names

def Raises (files : Files) (given svg : Str) : Prop :=
  Found files given svg ∧ ¬ Readable F files svg

/-- The run over the directory comes to the drawing. -/
def Reached (files : Files) (args : Args) (svg : Str) : Prop :=
  ∃ before after, files.svgFiles args.input = before ++ svg :: after ∧
    ∀ s ∈ before, ¬ Raises F files (outdirOf files args) s

end

/-! The header text, as far as it depends on the brand and on the flag. -/

variable {F : Type}

def beforeBrand (components : Components F) : Str :=
  infoFileHead components ++
    "    static constexpr std::string_view png_filename\x7b".toList ++ ['"']

def beforeElemNames (components : Components F) (definitions : Str) : Str :=
  components.slug ++ ".png".toList ++ ['"'] ++ "\x7d;\n".toList ++
    "\n    using enum Coords;\n\n".toList ++
    "    static constexpr std::array<Element, ".toList ++ strOfInt components.elements.length ++
    "> Elements\x7b\x7b\n".toList ++ definitions ++ "\x7d\x7d;\n\n".toList ++
    "    enum class Elem ".toList

def behindBrand (components : Components F) (definitions names : Str) : Str :=
  '/' :: (beforeElemNames components definitions ++ ['\x7b'] ++ names ++ "\n    \x7d;\n".toList)

def legacyPart (components : Components F) (doLegacy : PyArg) : Str :=
  if doLegacy.truthy then legacyNaming components else []

/-! The text behind the brand and the legacy part end in different ways. -/

theorem makeLegacyEnum_end {elements : List (Component F)} (h : elements ≠ []) :
    ∃ front, makeLegacyEnum "AltParam".toList elements = front ++ [' '] ++ "\n    \x7d;".toList := by
  have hempty : elements.isEmpty = false := by simpa using h
  obtain ⟨init, last, rfl⟩ := (List.eq_nil_or_concat' elements).resolve_left h
  refine ⟨"\n    enum \x7b".toList ++ ((init.flatMap fun k =>
    newLine ++ ("AltParam".toList ++ k.legacyEnumName) ++ ", ".toList) ++
      (newLine ++ ("AltParam".toList ++ last.legacyEnumName) ++ [','])), ?_⟩
  have hcomma : ", ".toList = [','] ++ [' '] := rfl
  have hcount : countName "AltParam".toList = none := rfl
  rw [makeLegacyEnum, hempty, if_neg Bool.false_ne_true, hcount, List.flatMap_append,
    List.flatMap_singleton]
  simp only [hcomma, Option.toList_none, List.flatMap_nil, List.append_nil, List.append_assoc]

theorem legacyNaming_end (components : Components F) :
    (∃ front, legacyNaming components = front ++ [' '] ++ "\n".toList) ∨
      ∃ front, legacyNaming components = front ++ [' '] ++ "\n    \x7d;\n".toList := by
  have hlast : ∃ front, legacyNaming components =
      front ++ newLine ++ makeLegacyEnum "AltParam".toList components.altParams ++ "\n".toList :=
    ⟨_, rfl⟩
  obtain ⟨front, hfront⟩ := hlast
  rw [hfront]
  by_cases hne : components.altParams = []
  · have hline : newLine = "\n       ".toList ++ [' '] := rfl
    have hnone : makeLegacyEnum "AltParam".toList components.altParams = [] := by rw [hne]; rfl
    refine .inl ⟨front ++ "\n       ".toList, ?_⟩
    rw [hnone, hline, List.append_nil, List.append_assoc front "\n       ".toList]
  · obtain ⟨front', hfront'⟩ := makeLegacyEnum_end hne
    have hclose : "\n    \x7d;\n".toList = "\n    \x7d;".toList ++ "\n".toList := rfl
    refine .inr ⟨front ++ newLine ++ front', ?_⟩
    rw [hfront', hclose]
    simp only [List.append_assoc]

section

variable [Unicode]

theorem listElemNames_end {elems : List (Component F)} {names : Str}
    (h : listElemNames elems = .ok names) : names = [] ∨ ∃ front, names = front ++ [','] := by
  induction elems generalizing names with
  | nil =>
    cases h
    exact .inl rfl
  | cons k elems ih =>
    simp only [listElemNames, bind_eq_ok] at h
    obtain ⟨category, -, rest, hrest, he⟩ := h
    cases he
    refine .inr ?_
    rcases ih hrest with rfl | ⟨front, rfl⟩
    · exact ⟨newLine ++ elemName k.enumName category.text, by rw [List.append_nil]; rfl⟩
    · exact ⟨newLine ++ elemName k.enumName category.text ++ ",".toList ++ front,
        (List.append_assoc _ front _).symm⟩

theorem behindBrand_end (components : Components F) (definitions : Str) {names : Str}
    (h : listElemNames components.elements = .ok names) :
    ∃ front c, behindBrand components definitions names = front ++ [c] ++ "\n    \x7d;\n".toList ∧
      c ≠ ' ' := by
  rcases listElemNames_end h with rfl | ⟨front, rfl⟩
  · refine ⟨'/' :: beforeElemNames components definitions, '\x7b', ?_, by decide⟩
    rw [behindBrand, List.append_nil]
    rfl
  · refine ⟨'/' :: (beforeElemNames components definitions ++ ['\x7b'] ++ front), ',', ?_, by decide⟩
    rw [behindBrand, ← List.append_assoc _ front]
    rfl

/-- No brand makes up for a legacy part that only one of the texts has. -/
theorem append_legacyNaming_ne (components : Components F) (definitions : Str) {names : Str}
    (h : listElemNames components.elements = .ok names) (s t : Str) :
    s ++ behindBrand components definitions names ≠ t ++ legacyNaming components := by
  intro he
  obtain ⟨front, c, hbehind, hc⟩ := behindBrand_end components definitions h
  rcases legacyNaming_end components with ⟨front', hlegacy⟩ | ⟨front', hlegacy⟩
  · have hclose : "\n    \x7d;\n".toList = "\n    \x7d".toList ++ [';'] ++ "\n".toList := rfl
    rw [hbehind, hlegacy, hclose] at he
    simp only [← List.append_assoc] at he
    have hsemicolon := List.append_inj_right' (List.append_cancel_right he) rfl
    cases hsemicolon
  · rw [hbehind, hlegacy] at he
    simp only [← List.append_assoc] at he
    have hspace := List.append_inj_right' (List.append_cancel_right he) rfl
    exact hc (List.cons.inj hspace).1

variable [PyFloat F]

theorem componentsToInfofile_ok {components : Components F} {doLegacy : PyArg} {brand text : Str} :
    componentsToInfofile components doLegacy brand = .ok text ↔
      ∃ definitions names, listElemDefinitions components.elements components.dpi = .ok definitions ∧
        listElemNames components.elements = .ok names ∧
        text = beforeBrand components ++ (brand ++ behindBrand components definitions names ++
          legacyPart components doLegacy) ++ "\n\x7d;\n\x7d // namespace MetaModule\n".toList := by
  have hslash : "/".toList = ['/'] := rfl
  have helem : "    enum class Elem \x7b".toList = "    enum class Elem ".toList ++ ['\x7b'] := rfl
  simp only [componentsToInfofile, bind_eq_ok, Except.ok.injEq, beforeBrand, behindBrand,
    beforeElemNames, legacyPart, quoted, hslash, helem, List.append_assoc, List.cons_append,
    List.nil_append]
  constructor
  · rintro ⟨definitions, hdefinitions, names, hnames, he⟩
    exact ⟨definitions, names, hdefinitions, hnames, he.symm⟩
  · rintro ⟨definitions, names, hdefinitions, hnames, he⟩
    exact ⟨definitions, hdefinitions, names, hnames, he.symm⟩

/-- With the brand in the place of the flag and the default in that of the brand,
the text is the same only for the default brand, and only with the legacy part. -/
theorem componentsToInfofile_agrees_iff {components : Components F} {legacy : PyArg}
    {brand text text' : Str} (h : componentsToInfofile components (.text brand) = .ok text)
    (h' : componentsToInfofile components legacy brand = .ok text') :
    text' = text ↔ brand = "4ms".toList ∧ legacy.truthy = true := by
  obtain ⟨definitions, names, hdefinitions, hnames, htext⟩ := componentsToInfofile_ok.mp h
  obtain ⟨definitions', names', hdefinitions', hnames', htext'⟩ := componentsToInfofile_ok.mp h'
  obtain rfl := Except.ok.inj (hdefinitions.symm.trans hdefinitions')
  obtain rfl := Except.ok.inj (hnames.symm.trans hnames')
  rw [htext, htext', List.append_left_inj, List.append_right_inj]
  have hbrand : (PyArg.text brand).truthy = true ↔ brand ≠ [] := by
    rw [PyArg.truthy, decide_eq_true_eq]
  constructor
  · intro he
    by_cases hempty : brand = []
    · -- without a brand the texts already differ where the brand should stand
      rw [hempty] at he
      exact absurd (List.cons.inj he).1 (by decide)
    · rw [legacyPart, legacyPart, if_pos (hbrand.mpr hempty)] at he
      by_cases hlegacy : legacy.truthy = true
      · rw [if_pos hlegacy, List.append_left_inj, List.append_left_inj] at he
        exact ⟨he, hlegacy⟩
      · rw [if_neg hlegacy, List.append_nil] at he
        exact absurd he (append_legacyNaming_ne components definitions hnames _ _)
  · rintro ⟨hdefault, hlegacy⟩
    have hne : brand ≠ [] := by
      rw [hdefault]
      decide
    rw [legacyPart, legacyPart, if_pos hlegacy, if_pos (hbrand.mpr hne), hdefault]

theorem createInfoFile_of_not_found {files : Files} {svg outdir brand : Str} {doLegacy : PyArg}
    (h : ¬ Found files outdir svg) :
    createInfoFile F files svg (some outdir) doLegacy brand = .ok none := by
  simp only [createInfoFile, Option.getD_some]
  exact if_neg fun hh => h (Bool.and_eq_true_iff.mp hh)

/-- Whether a drawing can be read and printed depends neither on the flag nor on the brand. -/
theorem createInfoFile_of_found {files : Files} {svg outdir : Str} (h : Found files outdir svg) :
    (Readable F files svg → ∃ (components : Components F) (header : InfoHeader),
      ∀ doLegacy brand, ∃ text, componentsToInfofile components doLegacy brand = .ok text ∧
        createInfoFile F files svg (some outdir) doLegacy brand =
          .ok (some { header with text })) ∧
    ∀ doLegacy brand header, createInfoFile F files svg (some outdir) doLegacy brand = .ok header →
      Readable F files svg := by
  simp only [createInfoFile, Option.getD_some]
  rw [Found] at h
  generalize (if files.isDir outdir = true then outdir
    else files.normpath (files.join (files.dirname svg) outdir)) = dir at h ⊢
  have hfound : (files.isDir dir && files.isFile svg) = true := Bool.and_eq_true_iff.mpr h
  simp only [hfound, ↓reduceIte]
  constructor
  · rintro ⟨tree, components, definitions, names, htree, hcomponents, hdefinitions, hnames⟩
    refine ⟨components, ⟨files.join dir (components.slug ++ "_info.hh".toList), [], components.slug⟩,
      fun doLegacy brand => ?_⟩
    obtain ⟨text, htext⟩ : ∃ text, componentsToInfofile components doLegacy brand = .ok text :=
      ⟨_, componentsToInfofile_ok.mpr ⟨definitions, names, hdefinitions, hnames, rfl⟩⟩
    refine ⟨text, htext, ?_⟩
    simp only [bind_eq_ok]
    exact ⟨tree, htree, components, hcomponents, text, htext, rfl⟩
  · intro doLegacy brand header hcall
    simp only [bind_eq_ok] at hcall
    obtain ⟨tree, htree, components, hcomponents, text, htext, -⟩ := hcall
    obtain ⟨definitions, names, hdefinitions, hnames, -⟩ := componentsToInfofile_ok.mp htext
    exact ⟨tree, components, definitions, names, htree, hcomponents, hdefinitions, hnames⟩

theorem createInfoFile_error_iff {files : Files} {svg outdir brand : Str} {doLegacy : PyArg} :
    (∃ e, createInfoFile F files svg (some outdir) doLegacy brand = .error e) ↔
      Raises F files outdir svg := by
  by_cases hfound : Found files outdir svg
  · obtain ⟨hreads, hok⟩ := createInfoFile_of_found (F := F) hfound
    constructor
    · rintro ⟨e, he⟩
      refine ⟨hfound, fun hreadable => ?_⟩
      obtain ⟨components, header, hcall⟩ := hreads hreadable
      obtain ⟨text, -, hcall⟩ := hcall doLegacy brand
      cases hcall.symm.trans he
    · rintro ⟨-, hnot⟩
      cases hcall : createInfoFile F files svg (some outdir) doLegacy brand with
      | error e => exact ⟨e, rfl⟩
      | ok header => exact absurd (hok doLegacy brand header hcall) hnot
  · refine iff_of_false ?_ fun h => hfound h.1
    rintro ⟨e, he⟩
    cases (createInfoFile_of_not_found hfound).symm.trans he

theorem header_of_not_readable {files : Files} {svg outdir brand : Str} {doLegacy : PyArg}
    (h : ¬ (Found files outdir svg ∧ Readable F files svg)) :
    (createInfoFile F files svg (some outdir) doLegacy brand).toOption.join = none := by
  by_cases hfound : Found files outdir svg
  · obtain ⟨e, he⟩ := createInfoFile_error_iff.mpr ⟨hfound, fun hreadable => h ⟨hfound, hreadable⟩⟩
    rw [he]
    rfl
  · rw [createInfoFile_of_not_found hfound]
    rfl

/-- In file mode the drawing has the header that its own call writes. -/
theorem header_file (files : Files) (args : Args) (svg : Str) :
    (createinfo F files { args with input := svg }).header svg =
      (createInfoFile F files svg (some (outdirOf files args)) args.legacy args.brand).toOption.join := by
  have hargs : outdirOf files { args with input := svg } = outdirOf files args := rfl
  rw [createinfo, hargs]
  by_cases hsvg : files.isFile svg = true
  · rw [if_pos hsvg]
    exact header_runCalls [] [] fun s hs => absurd hs List.not_mem_nil
  · have hnot : ∀ legacy brand, createInfoFile F files svg (some (outdirOf files args)) legacy brand =
        .ok none := fun legacy brand => createInfoFile_of_not_found fun h => hsvg h.2
    rw [if_neg hsvg, hnot]
    split_ifs with hglob
    · -- a directory of that name, in which it is not a drawing either
      cases hheader : (runCalls (createInfoFile F files · (some (outdirOf files args))
          (.text args.brand)) (files.svgFiles svg)).header svg with
      | none => rfl
      | some header => cases (hnot _ _).symm.trans (mem_written (mem_of_header hheader)).1
    · rfl

/-- In directory mode it has the header that its own call writes, if the run comes to it. -/
theorem header_directory {files : Files} {args : Args} (hfile : files.isFile args.input = false)
    (hdir : files.isDir args.input = true) (svg : Str) :
    (Reached F files args svg → (createinfo F files args).header svg =
      (createInfoFile F files svg (some (outdirOf files args)) (.text args.brand)).toOption.join) ∧
    (¬ Reached F files args svg → (createinfo F files args).header svg = none) := by
  have hrun : createinfo F files args = runCalls (createInfoFile F files · (some (outdirOf files args))
      (.text args.brand)) (files.svgFiles args.input) := by
    rw [createinfo, hfile, if_neg Bool.false_ne_true, if_pos hdir]
  rw [hrun]
  constructor
  · rintro ⟨before, after, hsvgs, hbefore⟩
    rw [hsvgs]
    exact header_runCalls before after fun s hs e he =>
      hbefore s hs (createInfoFile_error_iff.mp ⟨e, he⟩)
  · intro hnot
    cases hheader : (runCalls (createInfoFile F files · (some (outdirOf files args))
        (.text args.brand)) (files.svgFiles args.input)).header svg with
    | none => rfl
    | some header =>
      obtain ⟨-, before, after, hsvgs, hbefore⟩ := mem_written (mem_of_header hheader)
      refine absurd ⟨before, after, hsvgs, fun s hs hraises => ?_⟩ hnot
      obtain ⟨e, he⟩ := createInfoFile_error_iff.mpr hraises
      exact hbefore s hs e he

/-- Two calls for one drawing write the same text exactly if they write none, or are given the
default brand and the legacy flag. -/
theorem texts_agree_iff {files : Files} {outdir svg brand : Str} {legacy : PyArg} :
    (createInfoFile F files svg (some outdir) (.text brand)).toOption.join.map InfoHeader.text =
        (createInfoFile F files svg (some outdir) legacy brand).toOption.join.map InfoHeader.text ↔
      (Found files outdir svg ∧ Readable F files svg →
        brand = "4ms".toList ∧ legacy.truthy = true) := by
  by_cases hdrawn : Found files outdir svg ∧ Readable F files svg
  · obtain ⟨components, header, hcall⟩ := (createInfoFile_of_found hdrawn.1).1 hdrawn.2
    obtain ⟨text, htext, hdirectory⟩ := hcall (.text brand) "4ms".toList
    obtain ⟨text', htext', hfile⟩ := hcall legacy brand
    rw [hdirectory, hfile, imp_iff_right hdrawn, ← componentsToInfofile_agrees_iff htext htext']
    exact Option.some_inj.trans eq_comm
  · rw [header_of_not_readable hdrawn, header_of_not_readable hdrawn]
    exact iff_of_true rfl fun h => absurd h hdrawn

variable (F) in
/-- For every drawing a run over a directory writes the header text that it writes for the file
alone, exactly if the drawing has none, or else nothing before it raises, the brand is the
default one and the legacy flag is given. -/
theorem createinfo_directory_agrees_iff {files : Files} {args : Args}
    (hfile : files.isFile args.input = false) (hdir : files.isDir args.input = true) (svg : Str) :
    ((createinfo F files args).header svg).map InfoHeader.text =
        ((createinfo F files { args with input := svg }).header svg).map InfoHeader.text ↔
      (Found files (outdirOf files args) svg ∧ Readable F files svg →
        Reached F files args svg ∧ args.brand = "4ms".toList ∧ args.legacy.truthy = true) := by
  obtain ⟨hreached, hnot⟩ := header_directory (F := F) hfile hdir svg
  rw [header_file]
  by_cases hr : Reached F files args svg
  · rw [hreached hr, texts_agree_iff, and_iff_right hr]
  · rw [hnot hr]
    by_cases hdrawn : Found files (outdirOf files args) svg ∧ Readable F files svg
    · obtain ⟨components, header, hcall⟩ := (createInfoFile_of_found hdrawn.1).1 hdrawn.2
      obtain ⟨text, -, hcall⟩ := hcall args.legacy args.brand
      rw [hcall]
      exact iff_of_false (fun h => by cases h) fun h => hr (h hdrawn).1
    · rw [header_of_not_readable hdrawn]
      exact iff_of_true rfl fun h => absurd h hdrawn

end

/-! A directory with one drawing, of one jack. -/

open scoped PythonText.AsciiTables

def oneDrawing : Files where
  isFile path := path = "panels/jack.svg".toList
  isDir path := path = "panels".toList ∨ path = "info".toList
  dirname _ := "panels".toList
  join path name := path ++ '/' :: name
  normpath path := path
  svgFiles _ := ["panels/jack.svg".toList]
  parse _ := .ok (panelOf [circleShape "Clock" "fill:#00ff00;"])
  infoDir := "info".toList

def oneDrawingArgs (brand : Str) (legacy : PyArg) : Args where
  input := "panels".toList
  outdir := "info".toList
  brand := brand
  legacy := legacy

theorem oneDrawing_readable (brand : Str) (legacy : PyArg) :
    Found oneDrawing (outdirOf oneDrawing (oneDrawingArgs brand legacy)) "panels/jack.svg".toList ∧
      Readable ℚ oneDrawing "panels/jack.svg".toList := by
  have hsome : ((createInfoFile ℚ oneDrawing "panels/jack.svg".toList (some "info".toList)
      .false).toOption.join).isSome = true := by decide +kernel
  by_contra hnot
  have hnone : (createInfoFile ℚ oneDrawing "panels/jack.svg".toList (some "info".toList)
      .false).toOption.join = none := header_of_not_readable hnot
  rw [hnone] at hsome
  cases hsome

theorem createinfo_directory_agrees_sample :
    ((createinfo ℚ oneDrawing (oneDrawingArgs "4ms".toList (.text "yes".toList))).header
        "panels/jack.svg".toList).map InfoHeader.text =
      ((createinfo ℚ oneDrawing { oneDrawingArgs "4ms".toList (.text "yes".toList) with
        input := "panels/jack.svg".toList }).header "panels/jack.svg".toList).map InfoHeader.text :=
  (createinfo_directory_agrees_iff ℚ rfl rfl "panels/jack.svg".toList).mpr fun _ =>
    ⟨⟨[], [], rfl, fun _ hs => absurd hs List.not_mem_nil⟩, rfl, rfl⟩

theorem createinfo_directory_agrees_fails :
    "panels/jack.svg".toList ∈ oneDrawing.svgFiles "panels".toList ∧
      ((createinfo ℚ oneDrawing (oneDrawingArgs "4ms".toList .false)).header
          "panels/jack.svg".toList).map InfoHeader.text ≠
        ((createinfo ℚ oneDrawing { oneDrawingArgs "4ms".toList .false with
          input := "panels/jack.svg".toList }).header "panels/jack.svg".toList).map InfoHeader.text := by
  refine ⟨List.mem_cons_self, fun h => ?_⟩
  have hreached : Reached ℚ oneDrawing (oneDrawingArgs "4ms".toList .false) "panels/jack.svg".toList :=
    ⟨[], [], rfl, fun _ hs => absurd hs List.not_mem_nil⟩
  have hdirectory := (header_directory rfl rfl _).1 hreached
  rw [hdirectory, header_file] at h
  have hlegacy := (texts_agree_iff.mp h (oneDrawing_readable "4ms".toList .false)).2
  cases hlegacy

end PluginSdk
