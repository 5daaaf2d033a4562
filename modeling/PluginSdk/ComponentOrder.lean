import PluginSdk.IndexTable
import PluginSdk.LegacyEnum

/-! The lists of `panel_to_components` against the document: every recognised
shape stands in one of the four element lists, the legacy lists divide the
params and the jacks, and both number the jacks of a kind alike. -/

namespace PluginSdk

open PythonText XmlTree

inductive ElementList
  | params | jacks | lights | altParams
  deriving DecidableEq, Repr

inductive LegacyList
  | knobs | switches | inputs | outputs
  deriving DecidableEq, Repr

namespace Category

def list : Category → ElementList
  | knob | slider | encoder | button | switch => .params
  | input | output => .jacks
  | light | display => .lights
  | altParam => .altParams

def legacy : Category → Option LegacyList
  | knob | slider | encoder => some .knobs
  | button | switch => some .switches
  | input => some .inputs
  | output => some .outputs
  | light | display | altParam => none

end Category

namespace Branch

def list : Branch → ElementList
  | knobOrSlider | encoder | latchingButton | momentaryButton | switch2pos | switch3pos => .params
  | analogIn | gateIn | analogOut | gateOut => .jacks
  | led | display => .lights
  | altParam => .altParams

def legacy : Branch → Option LegacyList
  | knobOrSlider | encoder => some .knobs
  | latchingButton | momentaryButton | switch2pos | switch3pos => some .switches
  | analogIn | gateIn => some .inputs
  | analogOut | gateOut => some .outputs
  | led | display | altParam => none

end Branch

variable {F : Type}

namespace Component

def list (c : Component F) : Option ElementList := c.category.map Category.list

def legacy (c : Component F) : Option LegacyList := c.category.bind Category.legacy

end Component

namespace ComponentLists

def list (lists : ComponentLists F) : ElementList → List (Component F)
  | .params => lists.params
  | .jacks => lists.jacks
  | .lights => lists.lights
  | .altParams => lists.altParams

def legacy (lists : ComponentLists F) : LegacyList → List (Component F)
  | .knobs => lists.legacyKnobs
  | .switches => lists.legacySwitches
  | .inputs => lists.legacyInputs
  | .outputs => lists.legacyOutputs

theorem list_add (lists : ComponentLists F) (branch : Branch) (c : Component F) (k : ElementList) :
    (lists.add (branch, c)).list k =
      if branch.list = k then lists.list k ++ [c] else lists.list k := by
  cases branch <;> cases k <;> rfl

theorem legacy_add (lists : ComponentLists F) (branch : Branch) (c : Component F) (k : LegacyList) :
    (lists.add (branch, c)).legacy k =
      if branch.legacy = some k then lists.legacy k ++ [c] else lists.legacy k := by
  cases branch <;> cases k <;> rfl

end ComponentLists

section

variable [PyFloat F]

theorem asAltParam_legacyEnumName (c : Component F) (n : Int) :
    (c.asAltParam n).legacyEnumName = c.legacyEnumName := by
  unfold Component.asAltParam
  split
  · split_ifs <;> rfl
  · split_ifs <;> rfl

/-- What a completed component shows of its branch, and keeps of its name. -/
structure CompletedBy (branch : Branch) (c c' : Component F) : Prop where
  list : c'.list = some branch.list
  legacy : c'.legacy = branch.legacy
  legacyEnumName : c'.legacyEnumName = c.legacyEnumName

theorem Branch.complete_spec {branch : Branch} {el : SvgElem} {n : Int} {c c' : Component F}
    (h : branch.complete el n c = .ok c') : CompletedBy branch c c' := by
  cases branch with
  | knobOrSlider =>
    simp only [complete] at h
    cases hs : c.shape with
    | circle =>
      simp only [hs, bind_eq_ok, Except.ok.injEq] at h
      obtain ⟨newclass, _, rfl⟩ := h
      exact ⟨rfl, rfl, rfl⟩
    | rect box =>
      simp only [hs, Except.ok.injEq] at h
      subst h
      exact ⟨rfl, rfl, rfl⟩
  | encoder =>
    simp only [complete, bind_eq_ok, Except.ok.injEq] at h
    obtain ⟨newclass, _, rfl⟩ := h
    exact ⟨rfl, rfl, rfl⟩
  | switch2pos | switch3pos =>
    simp only [complete, bind_eq_ok, Except.ok.injEq] at h
    obtain ⟨size, _, rfl⟩ := h
    exact ⟨rfl, rfl, rfl⟩
  | altParam =>
    obtain rfl := Except.ok.inj h
    exact ⟨rfl, rfl, asAltParam_legacyEnumName c n⟩
  | led | analogIn | gateIn | analogOut | gateOut | latchingButton | momentaryButton | display =>
    obtain rfl := Except.ok.inj h
    exact ⟨rfl, rfl, rfl⟩

variable [Unicode]

variable (F) in
/-- A named circle or rect with a style whose colour leads to a branch. -/
def MatchesBranch (el : SvgElem) : Prop :=
  ∃ name style n branch, ∃ g : Geometry F, elementName el = some name ∧
    geometryOf el = .ok (some g) ∧ el.get "style".toList = some style ∧
    intOfString 16 (lastChars (fillColor style) 2) = some n ∧
    branchOf g.shape.isRect (fillColor style) n = some branch

theorem isEnumName_of_namedPart {name : Str} {part : NamedPart F} (h : namedPart name = .ok part) :
    IsEnumName part.legacyEnumName := by
  simp only [namedPart, bind_eq_ok, Except.ok.injEq] at h
  obtain ⟨⟨bare, range⟩, _, rfl⟩ := h
  exact isEnumName_formatAsLegacyEnumItem bare

theorem componentOf_eq_some {el : SvgElem} {branch : Branch} {c : Component F}
    (h : componentOf el = .ok (some (branch, c))) :
    MatchesBranch F el ∧ c.list = some branch.list ∧ c.legacy = branch.legacy ∧
      IsEnumName c.legacyEnumName := by
  unfold componentOf at h
  cases hname : elementName el with
  | none => simp [hname] at h
  | some name =>
    simp only [hname, bind_eq_ok] at h
    obtain ⟨part, hpart, geometry, hgeom, h⟩ := h
    cases geometry with
    | none => cases h
    | some g =>
      cases hstyle : el.get "style".toList with
      | none =>
        simp only [hstyle] at h
        cases h
      | some style =>
        cases hn : intOfString 16 (lastChars (fillColor style) 2) with
        | none =>
          simp only [hstyle, hn] at h
          cases h
        | some n =>
          cases hbranch : branchOf g.shape.isRect (fillColor style) n with
          | none =>
            simp only [hstyle, hn, hbranch] at h
            cases h
          | some branch' =>
            simp only [hstyle, hn, hbranch, bind_eq_ok, Except.ok.injEq, Option.some.injEq,
              Prod.mk.injEq] at h
            obtain ⟨c', hc, rfl, rfl⟩ := h
            have hdone := Branch.complete_spec hc
            refine ⟨⟨name, style, n, branch', g, hname, hgeom, hstyle, hn, hbranch⟩, hdone.list,
              hdone.legacy, ?_⟩
            rw [hdone.legacyEnumName]
            exact isEnumName_of_namedPart hpart

theorem componentOf_of_matches {el : SvgElem} {found : Option (Branch × Component F)}
    (h : MatchesBranch F el) (hok : componentOf el = .ok found) : ∃ bc, found = some bc := by
  obtain ⟨name, style, n, branch, g, hname, hgeom, hstyle, hn, hbranch⟩ := h
  simp only [componentOf, hname, bind_eq_ok, hgeom, hstyle, hn, Except.ok.injEq] at hok
  obtain ⟨part, hpart, _, rfl, hok⟩ := hok
  simp only [hbranch, bind_eq_ok, Except.ok.injEq] at hok
  obtain ⟨c, hc, rfl⟩ := hok
  exact ⟨_, rfl⟩

def recordOf (el : SvgElem) : Option (Component F) :=
  (Collecting.record componentOf el).map Prod.snd

def recordsOf (els : List SvgElem) : List (Component F) := els.filterMap recordOf

theorem recordsOf_eq (els : List SvgElem) :
    recordsOf (F := F) els = (els.filterMap (Collecting.record componentOf)).map Prod.snd := by
  rw [List.map_filterMap]
  rfl

theorem mem_found {els : List SvgElem} {branch : Branch} {c : Component F}
    (h : (branch, c) ∈ els.filterMap (Collecting.record componentOf)) :
    c.list = some branch.list ∧ c.legacy = branch.legacy ∧ IsEnumName c.legacyEnumName := by
  obtain ⟨el, _, hel⟩ := List.mem_filterMap.mp h
  unfold Collecting.record at hel
  cases hc : componentOf (F := F) el with
  | error e => simp [hc] at hel
  | ok found =>
    simp only [hc] at hel
    subst hel
    exact (componentOf_eq_some hc).2

theorem mem_recordsOf {els : List SvgElem} {c : Component F} (h : c ∈ recordsOf els) :
    ∃ branch : Branch, c.list = some branch.list ∧ c.legacy = branch.legacy ∧
      IsEnumName c.legacyEnumName := by
  rw [recordsOf_eq] at h
  obtain ⟨⟨branch, c⟩, hmem, rfl⟩ := List.mem_map.mp h
  exact ⟨branch, mem_found hmem⟩

theorem collect_proj {els : List SvgElem} {lists : ComponentLists F} (h : collect els = .ok lists)
    (proj : ComponentLists F → List (Component F)) {p : Component F → Bool} (hempty : proj {} = [])
    (hadd : ∀ branch c lists, c.list = some branch.list → c.legacy = branch.legacy →
      proj (lists.add (branch, c)) = proj lists ++ [c].filter p) :
    proj lists = (recordsOf els).filter p := by
  obtain ⟨_, rfl⟩ := Collecting.run_eq_ok_iff.mp h
  have hfold : ∀ lists : ComponentLists F,
      proj ((els.filterMap (Collecting.record componentOf)).foldl ComponentLists.add lists) =
        proj lists ++
          ((els.filterMap (Collecting.record componentOf)).map Prod.snd).filter p := by
    refine Collecting.foldl_filter proj fun bc hmem lists => ?_
    obtain ⟨hlist, hlegacy, _⟩ := mem_found hmem
    exact hadd bc.1 bc.2 lists hlist hlegacy
  rw [recordsOf_eq, hfold, hempty, List.nil_append]

theorem collect_list {els : List SvgElem} {lists : ComponentLists F} (h : collect els = .ok lists)
    (k : ElementList) : lists.list k = (recordsOf els).filter fun c => c.list = some k := by
  have hempty : ({} : ComponentLists F).list k = [] := by cases k <;> rfl
  refine collect_proj h (fun lists => lists.list k) hempty fun branch c lists hlist _ => ?_
  rw [ComponentLists.list_add, List.filter_singleton, hlist]
  by_cases hk : branch.list = k <;> simp [hk]

theorem collect_legacy {els : List SvgElem} {lists : ComponentLists F} (h : collect els = .ok lists)
    (k : LegacyList) : lists.legacy k = (recordsOf els).filter fun c => c.legacy = some k := by
  have hempty : ({} : ComponentLists F).legacy k = [] := by cases k <;> rfl
  refine collect_proj h (fun lists => lists.legacy k) hempty fun branch c lists _ hlegacy => ?_
  rw [ComponentLists.legacy_add, List.filter_singleton, hlegacy]
  by_cases hk : branch.legacy = some k <;> simp [hk]

/-- A legacy list is the part of an element list that a test on `legacy` keeps. -/
theorem legacy_eq_filter {els : List SvgElem} {lists : ComponentLists F} (h : collect els = .ok lists)
    {k : LegacyList} {l : ElementList} {p : Option LegacyList → Bool}
    (hp : ∀ branch : Branch, decide (branch.legacy = some k) =
      (p branch.legacy && decide (branch.list = l))) :
    (lists.legacy k).reverse = (lists.list l).reverse.filter fun c => p c.legacy := by
  rw [collect_legacy h, collect_list h, List.filter_reverse, List.filter_filter]
  congr 1
  refine List.filter_congr fun c hc => ?_
  obtain ⟨branch, hlist, hlegacy, _⟩ := mem_recordsOf hc
  rw [hlist, hlegacy, hp]
  simp only [Option.some.injEq]

def linked (params : List (Component F)) (c : Component F) : Component F :=
  if c.list = some .altParams then linkAltParam params c else c

/-- Every matching shape is recorded once; each list has its records in
reverse document order, and the legacy lists divide the params and the jacks. -/
structure CollectedInOrder (els : List SvgElem) (comps : Components F) : Prop where
  matched : ∀ el ∈ els, MatchesBranch F el ↔ ∃ c : Component F, recordOf el = some c
  once : comps.elements.Perm ((recordsOf els).map (linked comps.params.reverse))
  elements : comps.elements = comps.params ++ comps.jacks ++ comps.lights ++ comps.altParams
  params : comps.params = ((recordsOf els).filter fun c => c.list = some .params).reverse
  jacks : comps.jacks = ((recordsOf els).filter fun c => c.list = some .jacks).reverse
  lights : comps.lights = ((recordsOf els).filter fun c => c.list = some .lights).reverse
  altParams : comps.altParams = (((recordsOf els).filter fun c => c.list = some .altParams).map
    (linked comps.params.reverse)).reverse
  legacyKnobs : comps.legacyKnobs = comps.params.filter fun c => c.legacy = some .knobs
  legacySwitches : comps.legacySwitches = comps.params.filter fun c => ¬ c.legacy = some .knobs
  legacyInputs : comps.legacyInputs = comps.jacks.filter fun c => c.legacy = some .inputs
  legacyOutputs : comps.legacyOutputs = comps.jacks.filter fun c => ¬ c.legacy = some .inputs

theorem map_linked {els : List SvgElem} (params : List (Component F)) {k : ElementList}
    (hk : k ≠ .altParams) :
    ((recordsOf els).filter fun c => c.list = some k).map (linked params) =
      (recordsOf els).filter fun c => c.list = some k := by
  refine (List.map_congr_left fun c hc => ?_).trans (List.map_id _)
  have hlist : c.list = some k := of_decide_eq_true (List.mem_filter.mp hc).2
  rw [linked, hlist, if_neg fun he => hk (Option.some.inj he)]
  rfl

theorem map_linkAltParam {els : List SvgElem} (params : List (Component F)) :
    ((recordsOf els).filter fun c => c.list = some .altParams).map (linkAltParam params) =
      ((recordsOf els).filter fun c => c.list = some .altParams).map (linked params) := by
  refine List.map_congr_left fun c hc => ?_
  have hlist : c.list = some .altParams := of_decide_eq_true (List.mem_filter.mp hc).2
  rw [linked, if_pos hlist]

theorem recordsOf_perm (els : List SvgElem) (params : List (Component F)) :
    let recs := recordsOf els
    ((recs.filter fun c => c.list = some .params).reverse ++
      (recs.filter fun c => c.list = some .jacks).reverse ++
      (recs.filter fun c => c.list = some .lights).reverse ++
      ((recs.filter fun c => c.list = some .altParams).map (linked params)).reverse).Perm
        (recs.map (linked params)) := by
  intro recs
  have hkinds : ∀ c ∈ recs, c.list ∈ [some ElementList.params, some .jacks, some .lights,
      some .altParams] := by
    intro c hc
    obtain ⟨branch, hlist, _⟩ := mem_recordsOf hc
    rw [hlist]
    cases branch <;> decide
  -- linking changes nothing outside the alt params
  have hall := (Collecting.flatMap_filter_perm (by decide) hkinds).map (linked params)
  simp only [List.flatMap_cons, List.flatMap_nil, List.append_nil, List.map_append] at hall
  rw [map_linked params (by decide), map_linked params (by decide), map_linked params (by decide)]
    at hall
  refine List.Perm.trans ?_ hall
  rw [List.append_assoc, List.append_assoc]
  exact (List.reverse_perm _).append ((List.reverse_perm _).append
    ((List.reverse_perm _).append (List.reverse_perm _)))

theorem recordOf_iff {els : List SvgElem} {lists : ComponentLists F} (h : collect els = .ok lists)
    {el : SvgElem} (hel : el ∈ els) : MatchesBranch F el ↔ ∃ c : Component F, recordOf el = some c := by
  have hok := (Collecting.run_eq_ok_iff.mp h).1 el hel
  unfold recordOf
  constructor
  · intro hmatches
    obtain ⟨bc, hfound⟩ := componentOf_of_matches hmatches hok
    exact ⟨bc.2, by rw [hfound]; rfl⟩
  · rintro ⟨c, hc⟩
    obtain ⟨⟨branch, c'⟩, hfound, rfl⟩ := Option.map_eq_some_iff.mp hc
    rw [hfound] at hok
    exact (componentOf_eq_some hok).1

theorem collectedInOrder {els : List SvgElem} {lists : ComponentLists F}
    (h : collect els = .ok lists) (dpi hp : Int) (slug moduleName : Str) :
    CollectedInOrder els (lists.finish dpi hp slug moduleName) := by
  have hparams : lists.params = _ := collect_list h .params
  have hjacks : lists.jacks = _ := collect_list h .jacks
  have hlights : lists.lights = _ := collect_list h .lights
  have halt : lists.altParams = _ := collect_list h .altParams
  constructor
  case matched => exact fun el hel => recordOf_iff h hel
  case once =>
    simp only [ComponentLists.finish, List.reverse_reverse]
    rw [halt, map_linkAltParam, hparams, hjacks, hlights]
    exact recordsOf_perm els _
  case elements => rfl
  case params => exact congrArg List.reverse hparams
  case jacks => exact congrArg List.reverse hjacks
  case lights => exact congrArg List.reverse hlights
  case altParams =>
    simp only [ComponentLists.finish, List.reverse_reverse]
    rw [halt, map_linkAltParam]
  case legacyKnobs =>
    apply legacy_eq_filter h (k := .knobs) (l := .params) (p := fun o => o = some .knobs)
    rintro ⟨⟩ <;> rfl
  case legacySwitches =>
    apply legacy_eq_filter h (k := .switches) (l := .params) (p := fun o => ¬ o = some .knobs)
    rintro ⟨⟩ <;> rfl
  case legacyInputs =>
    apply legacy_eq_filter h (k := .inputs) (l := .jacks) (p := fun o => o = some .inputs)
    rintro ⟨⟩ <;> rfl
  case legacyOutputs =>
    apply legacy_eq_filter h (k := .outputs) (l := .jacks) (p := fun o => ¬ o = some .inputs)
    rintro ⟨⟩ <;> rfl

end

end PluginSdk
