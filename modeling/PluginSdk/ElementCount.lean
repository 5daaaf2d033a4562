import PluginSdk.Element
import PluginSdk.Tiling

/-! Counting elements and numbering their params, lights, inputs and outputs.
Each kind has its own running total, and the totals tile the id space. -/

namespace PluginSdk

structure Counts where
  numParams : Nat := 0
  numLights : Nat := 0
  numInputs : Nat := 0
  numOutputs : Nat := 0
  deriving DecidableEq, Repr

instance : Add Counts where
  add a b := {
    numParams := a.numParams + b.numParams
    numLights := a.numLights + b.numLights
    numInputs := a.numInputs + b.numInputs
    numOutputs := a.numOutputs + b.numOutputs }

structure Indices where
  paramIdx : UInt16 := 0
  lightIdx : UInt16 := 0
  inputIdx : UInt16 := 0
  outputIdx : UInt16 := 0
  deriving DecidableEq, Repr

def noElementMarker : UInt16 := 0xFFFF

def noElementIndices : Indices := {
  paramIdx := noElementMarker
  lightIdx := noElementMarker
  inputIdx := noElementMarker
  outputIdx := noElementMarker }

/-- `Indices + Counts`, each sum cast back to `uint16_t`. -/
instance : HAdd Indices Counts Indices where
  hAdd a c := {
    paramIdx := UInt16.ofNat (a.paramIdx.toNat + c.numParams)
    lightIdx := UInt16.ofNat (a.lightIdx.toNat + c.numLights)
    inputIdx := UInt16.ofNat (a.inputIdx.toNat + c.numInputs)
    outputIdx := UInt16.ofNat (a.outputIdx.toNat + c.numOutputs) }

inductive Kind
  | param | light | input | output
  deriving DecidableEq, Repr

def Counts.num (c : Counts) : Kind → Nat
  | .param => c.numParams
  | .light => c.numLights
  | .input => c.numInputs
  | .output => c.numOutputs

def Indices.idx (a : Indices) : Kind → UInt16
  | .param => a.paramIdx
  | .light => a.lightIdx
  | .input => a.inputIdx
  | .output => a.outputIdx

section

variable {F : Type}

def count (el : Element F) : Counts := {
  numParams := el.type.numParams
  numLights := el.type.numLights
  numInputs := el.type.numInputs
  numOutputs := el.type.numOutputs }

def countAll (els : List (Element F)) : Counts :=
  els.foldl (fun total el => total + count el) {}

def maskedTotal (elCnt : Counts) (runningTotal : Indices) : Indices := {
  paramIdx := if elCnt.numParams > 0 then runningTotal.paramIdx else noElementMarker
  lightIdx := if elCnt.numLights > 0 then runningTotal.lightIdx else noElementMarker
  inputIdx := if elCnt.numInputs > 0 then runningTotal.inputIdx else noElementMarker
  outputIdx := if elCnt.numOutputs > 0 then runningTotal.outputIdx else noElementMarker }

def indicesFrom (runningTotal : Indices) : List (Element F) → List Indices
  | [] => []
  | el :: els => maskedTotal (count el) runningTotal :: indicesFrom (runningTotal + count el) els

def getIndices (els : List (Element F)) : List Indices := indicesFrom {} els

def writeIndices (runningTotal : Indices) (i : Nat) :
    List (Element F) → List Indices → Option (List Indices)
  | [], span => some span
  | el :: els, span =>
    if i < span.length then
      writeIndices (runningTotal + count el) (i + 1) els
        (span.set i (maskedTotal (count el) runningTotal))
    else none

/-- `get_indices(elements, indices)`, writing into the caller's span; `none`
when a write falls outside it. -/
def getIndicesInto (els : List (Element F)) (span : List Indices) : Option (List Indices) :=
  writeIndices {} 0 els span

def markUnusedIndices (indices : Indices) (count : Counts) : Indices := {
  paramIdx := if count.numParams = 0 then noElementMarker else indices.paramIdx
  lightIdx := if count.numLights = 0 then noElementMarker else indices.lightIdx
  inputIdx := if count.numInputs = 0 then noElementMarker else indices.inputIdx
  outputIdx := if count.numOutputs = 0 then noElementMarker else indices.outputIdx }

def matched (x y : Indices) : Bool :=
  (x.paramIdx == y.paramIdx && x.paramIdx != noElementMarker) ||
  (x.inputIdx == y.inputIdx && x.inputIdx != noElementMarker) ||
  (x.outputIdx == y.outputIdx && x.outputIdx != noElementMarker) ||
  (x.lightIdx == y.lightIdx && x.lightIdx != noElementMarker)

def sizes (els : List (Element F)) (k : Kind) : List Nat := els.map fun el => (count el).num k

@[simp] theorem Counts.num_add (a b : Counts) (k : Kind) : (a + b).num k = a.num k + b.num k := by
  cases k <;> rfl

theorem Indices.idx_add (a : Indices) (c : Counts) (k : Kind) :
    (a + c).idx k = UInt16.ofNat ((a.idx k).toNat + c.num k) := by
  cases k <;> rfl

theorem maskedTotal_idx (c : Counts) (a : Indices) (k : Kind) :
    (maskedTotal c a).idx k = if 0 < c.num k then a.idx k else noElementMarker := by
  cases k <;> rfl

theorem foldl_count_num (els : List (Element F)) (total : Counts) (k : Kind) :
    (els.foldl (fun total el => total + count el) total).num k =
      total.num k + (sizes els k).sum := by
  induction els generalizing total with
  | nil => rfl
  | cons el els ih =>
    have hs : (sizes (el :: els) k).sum = (count el).num k + (sizes els k).sum := by simp [sizes]
    rw [List.foldl_cons, ih, hs, Counts.num_add, Nat.add_assoc]

theorem countAll_num (els : List (Element F)) (k : Kind) :
    (countAll els).num k = (sizes els k).sum := by
  have hz : Counts.num {} k = 0 := by cases k <;> rfl
  rw [countAll, foldl_count_num, hz, Nat.zero_add]

theorem indicesFrom_length (els : List (Element F)) (running : Indices) :
    (indicesFrom running els).length = els.length := by
  induction els generalizing running with
  | nil => rfl
  | cons el els ih => simp [indicesFrom, ih]

theorem getIndices_length (els : List (Element F)) : (getIndices els).length = els.length :=
  indicesFrom_length els {}

/-- Row `i` is masked by the counts of element `i` and otherwise holds the
start value plus the sizes before it, modulo `2 ^ 16`. -/
theorem indicesFrom_idx {els : List (Element F)} {running idx : Indices} {i : Nat} {el : Element F}
    (he : els[i]? = some el) (ht : (indicesFrom running els)[i]? = some idx) (k : Kind) :
    idx.idx k = if 0 < (count el).num k then
      UInt16.ofNat ((running.idx k).toNat + Tiling.offset (sizes els k) i)
    else noElementMarker := by
  induction els generalizing running i with
  | nil => simp at he
  | cons a els ih =>
    cases i with
    | zero =>
      simp only [List.getElem?_cons_zero, Option.some.injEq, indicesFrom] at he ht
      subst he ht
      rw [maskedTotal_idx]
      simp
    | succ i =>
      have hh := @ih (running + count a) i he ht
      have ho : Tiling.offset (sizes (a :: els) k) (i + 1) =
          (count a).num k + Tiling.offset (sizes els k) i := by
        simp [Tiling.offset, sizes]
      rw [hh, Indices.idx_add, ho]
      congr 1
      apply UInt16.toNat_inj.mp
      simp only [UInt16.toNat_ofNat']
      omega

theorem getIndices_idx {els : List (Element F)} {idx : Indices} {i : Nat} {el : Element F}
    (he : els[i]? = some el) (ht : (getIndices els)[i]? = some idx) (k : Kind) :
    idx.idx k = if 0 < (count el).num k then UInt16.ofNat (Tiling.offset (sizes els k) i)
      else noElementMarker := by
  have hz : (Indices.idx {} k).toNat = 0 := by cases k <;> rfl
  simpa only [hz, Nat.zero_add] using indicesFrom_idx he ht k

end

end PluginSdk
