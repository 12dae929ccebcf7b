import SpirvToDxil.Nir.GlslType
import SpirvToDxil.Util.Cells
import SpirvToDxil.Util.RowMajor
import SpirvToDxil.Util.MapM
import Mathlib.Data.Nat.ModEq

/-!
# Flattening arrays of variables

A variable of nested arrays, vectors or matrices becomes an array of scalars. Accesses compute an
index from the component slots of the types on their way, and the constant initializer is laid out
by a walk of its own.
-/

namespace SpirvToDxil

namespace FlattenVarArrays

/-- A `nir_constant`, a leaf where `num_elements` is 0. -/
inductive Constant where
  | leaf (values : Nat → BitVec 64)
  | node (elements : List Constant)

mutual

/-- `flatten_constant_initializer`: the scalars that are written one after the other. -/
def flattenConstantInitializer (vectorElements : Nat) : Constant → List (BitVec 64)
  | .leaf values => (List.range vectorElements).map values
  | .node elements => flattenElements vectorElements elements

def flattenElements (vectorElements : Nat) : List Constant → List (BitVec 64)
  | [] => []
  | element :: elements =>
    flattenConstantInitializer vectorElements element ++ flattenElements vectorElements elements

end

open GlslType

def isArrayOfArrays : GlslType → Bool
  | .array element _ _ => element.isArray
  | _ => false

def getComponents : GlslType → Nat
  | .vector _ vectorElements => vectorElements
  | .matrix _ vectorElements matrixColumns _ _ => vectorElements * matrixColumns
  | _ => 0

def getVectorElements : GlslType → Nat
  | .vector _ vectorElements | .matrix _ vectorElements _ _ _ => vectorElements
  | _ => 0

def bitSize : GlslType → Nat
  | .vector bitSize _ | .matrix bitSize _ _ _ _ => bitSize
  | _ => 0

/-- An array variable after the pass, with the elements of its initializer that are written. -/
structure Flattened where
  length : Nat
  elements : Option (List (BitVec 64))

/-- `flatten_var_array_types`, if the variable is changed. -/
def flattenVarArrayTypes (type : GlslType) (constantInitializer : Option Constant) :
    Option Flattened :=
  let matrixType := type.withoutArray
  if isArrayOfArrays type = false ∧ getComponents matrixType = 1 then none
  else
    some
      { length := type.getComponentSlots
        elements := constantInitializer.map
          (flattenConstantInitializer (getVectorElements matrixType)) }

/-- The loop over the derefs of arrays, where there is no index at first. -/
def chainIndex : GlslType → Option UInt32 → List UInt32 → Option UInt32
  | _, index, [] => index
  | type, index, arrIndex :: chain =>
    let type := type.getArrayElement
    let val := arrIndex * UInt32.ofNat type.getComponentSlots
    let index := match index with
      | some index => index + val
      | none => val
    chainIndex type (some index) chain

/-- The components of what a chain of derefs leads to. -/
def numComponents : GlslType → List UInt32 → Nat
  | type, [] => getVectorElements type
  | type, _ :: chain => numComponents type.getArrayElement chain

def finalIndex (index : Option UInt32) (i : Nat) : UInt32 :=
  match index with
  | some index => index + UInt32.ofNat i
  | none => UInt32.ofNat i

/-- `flatten_var_arrays`: the elements that the new loads and stores access. -/
def flattenVarArrays (type : GlslType) (chain : List UInt32) : Option (List UInt32) :=
  let index := chainIndex type none chain
  let vectorComps := numComponents type chain
  if 1 < vectorComps then some ((List.range vectorComps).map (finalIndex index))
  else index.map fun index => [index]

/-- Through a chain of derefs in the bounds of the types, to a vector or a scalar. -/
def InBounds : GlslType → List UInt32 → Prop
  | .array element length _, index :: chain => index.toNat < length ∧ InBounds element chain
  | .matrix bitSize vectorElements matrixColumns _ _, index :: chain =>
    index.toNat < matrixColumns ∧ InBounds (.vector bitSize vectorElements) chain
  | .vector _ vectorElements, [index] => 1 < vectorElements ∧ index.toNat < vectorElements
  | .vector .., [] => True
  | _, _ => False

/-- An access to a variable. Atomics access one component. -/
structure VarAccess where
  chain : List UInt32
  op : Cells.Op (BitVec 64)

/-- The indices on the way to a component, which are the place of it in the variable. -/
def componentPath (type : GlslType) (chain : List UInt32) (i : Nat) : List Nat :=
  chain.map UInt32.toNat ++ if numComponents type chain = 1 then [] else [i]

namespace VarAccess

/-- The access to the components of the original variable. -/
def original (type : GlslType) (access : VarAccess) : Cells.Access (List Nat) (BitVec 64) :=
  ⟨(List.range (numComponents type access.chain)).map (componentPath type access.chain),
    access.op⟩

/-- The accesses to the array, which is only known to be accessed in bounds. -/
def flattened (type : GlslType) (length : Nat) (access : VarAccess) :
    Option (Cells.Access Nat (BitVec 64)) :=
  match flattenVarArrays type access.chain with
  | some indices =>
    let keys := indices.map UInt32.toNat
    if ∀ key ∈ keys, key < length then some ⟨keys, access.op⟩ else none
  | none => none

end VarAccess

mutual

/-- The scalar that the initializer gives a component. -/
def Constant.valueAt : List Nat → Constant → Option (BitVec 64)
  | path, .leaf values => some (values (path.headD 0))
  | index :: path, .node elements => valueAtElement index path elements
  | [], .node _ => none

def valueAtElement : Nat → List Nat → List Constant → Option (BitVec 64)
  | _, _, [] => none
  | 0, path, element :: _ => element.valueAt path
  | index + 1, path, _ :: elements => valueAtElement index path elements

end

def initial (constantInitializer : Option Constant) (path : List Nat) : Option (BitVec 64) :=
  constantInitializer.bind (Constant.valueAt path)

def Flattened.initial (flattened : Flattened) (index : Nat) : Option (BitVec 64) :=
  flattened.elements.bind (·[index]?)

/-- Accesses are in bounds, and an atomic is one of a scalar. -/
def VarAccess.Valid (type : GlslType) (access : VarAccess) : Prop :=
  InBounds type access.chain ∧
    match access.op with
    | .atomic _ => numComponents type access.chain = 1
    | _ => True

/-- The element of the array that is accessed for a component. -/
def accessedElement (type : GlslType) (chain : List UInt32) (i : Nat) : Option Nat := do
  let indices ← flattenVarArrays type chain
  let index ← indices[i]?
  some index.toNat

/-- Distinct components are accessed at distinct elements in bounds. -/
def KeepsApart (type : GlslType) (length : Nat) : Prop :=
  ∀ chain chain' i i', InBounds type chain → InBounds type chain' →
    i < numComponents type chain → i' < numComponents type chain' →
    ∃ element element', accessedElement type chain i = some element ∧
      accessedElement type chain' i' = some element' ∧ element < length ∧
      (componentPath type chain i ≠ componentPath type chain' i' → element ≠ element')

/-- Every program loads the same values. -/
def KeepsValues (type : GlslType) (constantInitializer : Option Constant) (flat : Flattened) :
    Prop :=
  ∀ program : List VarAccess, (∀ access ∈ program, access.Valid type) →
    ∃ accesses, program.mapM (VarAccess.flattened type flat.length) = some accesses ∧
      Cells.run flat.initial accesses =
        Cells.run (initial constantInitializer) (program.map (VarAccess.original type))

/-- A variable that is not flattened stays as it is, and so do its accesses. -/
def Preserves (type : GlslType) (constantInitializer : Option Constant) : Prop :=
  ∀ flat, flattenVarArrayTypes type constantInitializer = some flat →
    KeepsApart type flat.length ∧ KeepsValues type constantInitializer flat

/-- Arrays in arrays over a scalar, vector or matrix. Lengths are `unsigned`. -/
def IsNest : GlslType → Prop
  | .array element length _ => length < 2 ^ 32 ∧ IsNest element
  | .matrix _ vectorElements matrixColumns _ _ =>
    2 ≤ vectorElements ∧ vectorElements ≤ 4 ∧ 2 ≤ matrixColumns ∧ matrixColumns ≤ 4
  | .vector _ vectorElements => 1 ≤ vectorElements ∧ vectorElements ≤ 16
  | _ => False

/-- The initializer has the elements of the type. -/
def Shaped : GlslType → Constant → Prop
  | .array element length _, .node elements =>
    elements.length = length ∧ ∀ constant ∈ elements, Shaped element constant
  | .matrix _ _ matrixColumns _ _, .node elements =>
    elements.length = matrixColumns ∧ ∀ constant ∈ elements, ∃ values, constant = .leaf values
  | .vector .., .leaf _ => True
  | _, _ => False

/-- The lengths of all levels, down to the scalars. -/
def dims : GlslType → List Nat
  | .array element length _ => length :: dims element
  | .matrix _ vectorElements matrixColumns _ _ => [matrixColumns, vectorElements]
  | .vector _ vectorElements => if vectorElements = 1 then [] else [vectorElements]
  | _ => []

/-- The component slots of a scalar. -/
def scalarSlots (type : GlslType) : Nat := if bitSize type.withoutArray = 64 then 2 else 1

/-- The element that a component has when it is accessed alone. -/
def place (type : GlslType) (path : List Nat) : Nat :=
  scalarSlots type * RowMajor.flatIndex (dims type) path

section Indices

variable {type : GlslType}

theorem prod_dims_vector (size vectorElements : Nat) :
    (dims (.vector size vectorElements)).prod = vectorElements := by
  rw [dims]
  split
  next single => rw [single, List.prod_nil]
  next => exact List.prod_singleton

theorem getComponentSlots_eq (nest : IsNest type) :
    type.getComponentSlots = scalarSlots type * (dims type).prod % 2 ^ 32 := by
  fun_induction IsNest type with
  | case1 element length stride inductionHypothesis =>
      have slots : scalarSlots (.array element length stride) = scalarSlots element := rfl
      rw [getComponentSlots, unsigned, inductionHypothesis nest.2, slots, dims, List.prod_cons,
        Nat.mul_mod_mod, Nat.mul_left_comm]
  | case2 size rows columns =>
      obtain ⟨-, fewRows, -, fewColumns⟩ := nest
      have few : rows * columns ≤ 4 * 4 := Nat.mul_le_mul fewRows fewColumns
      have prod : (dims (.matrix size rows columns ‹_› ‹_›)).prod = rows * columns := by
        simp [dims, Nat.mul_comm]
      rw [prod, getComponentSlots, scalarSlots, withoutArray, bitSize]
      · split <;> omega
      · intro element length explicitStride isArray
        cases isArray
  | case3 size vectorElements =>
      rw [prod_dims_vector, getComponentSlots, scalarSlots, withoutArray, bitSize]
      · split <;> omega
      · intro element length explicitStride isArray
        cases isArray
  | case4 => exact nest.elim

theorem inBounds_cons (nest : IsNest type) {index : UInt32} {chain : List UInt32}
    (inBounds : InBounds type (index :: chain)) :
    ∃ length, dims type = length :: dims type.getArrayElement ∧ index.toNat < length ∧
      IsNest type.getArrayElement ∧ InBounds type.getArrayElement chain ∧
      scalarSlots type.getArrayElement = scalarSlots type := by
  cases type with
  | array element length stride => exact ⟨length, rfl, inBounds.1, nest.2, inBounds.2, rfl⟩
  | matrix size rows columns stride rowMajor =>
      obtain ⟨several, few, -, -⟩ := nest
      refine ⟨columns, ?_, inBounds.1, ⟨by omega, by omega⟩, inBounds.2, rfl⟩
      rw [getArrayElement, dims, dims, if_neg (by omega)]
  | vector size vectorElements =>
      cases chain with
      | nil =>
          obtain ⟨several, inside⟩ := inBounds
          refine ⟨vectorElements, ?_, inside, ⟨by decide, by decide⟩, trivial, rfl⟩
          rw [getArrayElement, dims, dims, if_neg (by omega), if_pos rfl]
      | cons => exact inBounds.elim
  | handle | struct => exact nest.elim

theorem inBounds_nil (inBounds : InBounds type []) :
    ∃ size vectorElements, type = .vector size vectorElements := by
  cases type with
  | vector size vectorElements => exact ⟨size, vectorElements, rfl⟩
  | array | matrix | handle | struct => exact inBounds.elim

theorem numComponents_pos (nest : IsNest type) {chain : List UInt32}
    (inBounds : InBounds type chain) : 1 ≤ numComponents type chain := by
  induction chain generalizing type with
  | nil =>
      obtain ⟨size, vectorElements, rfl⟩ := inBounds_nil inBounds
      exact nest.1
  | cons index chain inductionHypothesis =>
      obtain ⟨-, -, -, nestElement, inElement, -⟩ := inBounds_cons nest inBounds
      exact inductionHypothesis nestElement inElement

/-- Components are in the bounds of the levels, and they follow one another in a vector. -/
theorem componentPath_spec (nest : IsNest type) {chain : List UInt32}
    (inBounds : InBounds type chain) {i : Nat} (inside : i < numComponents type chain) :
    RowMajor.InBounds (dims type) (componentPath type chain i) ∧
      RowMajor.flatIndex (dims type) (componentPath type chain i) =
        RowMajor.flatIndex (dims type) (componentPath type chain 0) + i := by
  induction chain generalizing type with
  | nil =>
      obtain ⟨size, vectorElements, rfl⟩ := inBounds_nil inBounds
      change i < vectorElements at inside
      rw [componentPath, componentPath, dims]
      by_cases single : vectorElements = 1
      · have components : numComponents (.vector size vectorElements) [] = 1 := single
        rw [if_pos single, if_pos components, if_pos components]
        exact ⟨.nil, by omega⟩
      · have components : ¬ numComponents (.vector size vectorElements) [] = 1 := single
        rw [if_neg single, if_neg components, if_neg components]
        refine ⟨.cons inside .nil, ?_⟩
        simp [RowMajor.flatIndex, RowMajor.offset]
  | cons index chain inductionHypothesis =>
      obtain ⟨length, shape, less, nestElement, inElement, -⟩ := inBounds_cons nest inBounds
      obtain ⟨within, next⟩ := inductionHypothesis nestElement inElement inside
      rw [shape]
      refine ⟨.cons less within, ?_⟩
      have prefixed (i : Nat) : componentPath type (index :: chain) i =
          index.toNat :: componentPath type.getArrayElement chain i := rfl
      rw [prefixed, prefixed]
      change _ + RowMajor.flatIndex _ _ = _ + RowMajor.flatIndex _ _ + i
      rw [next, Nat.add_assoc]

theorem chainIndex_cons (index : Option UInt32) (arrIndex : UInt32) (chain : List UInt32) :
    ∃ next, chainIndex type index (arrIndex :: chain) =
        chainIndex type.getArrayElement (some next) chain ∧
      next.toNat = ((index.getD 0).toNat +
        arrIndex.toNat * type.getArrayElement.getComponentSlots) % 2 ^ 32 := by
  have val : (arrIndex * UInt32.ofNat type.getArrayElement.getComponentSlots).toNat =
      arrIndex.toNat * type.getArrayElement.getComponentSlots % 2 ^ 32 := by
    rw [UInt32.toNat_mul, UInt32.toNat_ofNat', Nat.mul_mod_mod]
  cases index with
  | none =>
      refine ⟨_, rfl, ?_⟩
      rw [val]
      simp
  | some index =>
      refine ⟨_, rfl, ?_⟩
      rw [UInt32.toNat_add, val, Nat.add_mod_mod]
      rfl

theorem exists_chainIndex {chain : List UInt32} (nonempty : chain ≠ []) :
    ∃ index, chainIndex type none chain = some index := by
  have later (index : UInt32) (chain : List UInt32) (type : GlslType) :
      ∃ found, chainIndex type (some index) chain = some found := by
    induction chain generalizing type index with
    | nil => exact ⟨index, rfl⟩
    | cons arrIndex chain inductionHypothesis =>
        obtain ⟨next, step, -⟩ := @chainIndex_cons type (some index) arrIndex chain
        rw [step]
        exact inductionHypothesis next type.getArrayElement
  cases chain with
  | nil => exact absurd rfl nonempty
  | cons arrIndex chain =>
      obtain ⟨next, step, -⟩ := @chainIndex_cons type none arrIndex chain
      rw [step]
      exact later next chain type.getArrayElement

theorem toNat_finalIndex (index : Option UInt32) (i : Nat) :
    (finalIndex index i).toNat = ((index.getD 0).toNat + i) % 2 ^ 32 := by
  cases index with
  | none => simp [finalIndex]
  | some index => simp [finalIndex]

/-- The index is computed modulo the range of `unsigned`. -/
theorem toNat_chainIndex (nest : IsNest type) {chain : List UInt32}
    (inBounds : InBounds type chain) (index : Option UInt32) :
    ((chainIndex type index chain).getD 0).toNat =
      ((index.getD 0).toNat + place type (componentPath type chain 0)) % 2 ^ 32 := by
  induction chain generalizing type index with
  | nil =>
      obtain ⟨size, vectorElements, rfl⟩ := inBounds_nil inBounds
      have first : RowMajor.flatIndex (dims (.vector size vectorElements))
          (componentPath (.vector size vectorElements) [] 0) = 0 := by
        rw [componentPath, dims]
        by_cases single : vectorElements = 1
        · simp [single, RowMajor.flatIndex, RowMajor.offset]
        · have components : ¬ numComponents (.vector size vectorElements) [] = 1 := single
          simp [single, components, RowMajor.flatIndex, RowMajor.offset]
      rw [place, first, Nat.mul_zero, Nat.add_zero, chainIndex,
        Nat.mod_eq_of_lt (UInt32.toNat_lt _)]
  | cons arrIndex chain inductionHypothesis =>
      obtain ⟨length, shape, less, nestElement, inElement, slots⟩ := inBounds_cons nest inBounds
      have prefixed : componentPath type (arrIndex :: chain) 0 =
          arrIndex.toNat :: componentPath type.getArrayElement chain 0 := rfl
      have split : place type (componentPath type (arrIndex :: chain) 0) =
          arrIndex.toNat * (scalarSlots type * (dims type.getArrayElement).prod) +
            place type.getArrayElement (componentPath type.getArrayElement chain 0) := by
        rw [place, place, shape, prefixed, slots]
        change _ * (_ + RowMajor.flatIndex _ _) = _
        rw [Nat.mul_add, Nat.mul_left_comm]
      obtain ⟨next, step, isNext⟩ := @chainIndex_cons type index arrIndex chain
      rw [step, inductionHypothesis nestElement inElement, Option.getD_some, isNext, split,
        getComponentSlots_eq nestElement, slots, Nat.mod_add_mod, Nat.add_assoc]
      apply Nat.ModEq.add_left
      apply Nat.ModEq.add_right
      exact Nat.ModEq.mul_left _ (Nat.mod_modEq _ _)

theorem place_lt {path : List Nat} (inside : RowMajor.InBounds (dims type) path) :
    place type path < scalarSlots type * (dims type).prod := by
  have positive : 0 < scalarSlots type := by
    rw [scalarSlots]
    split <;> decide
  exact Nat.mul_lt_mul_of_pos_left (RowMajor.flatIndex_lt inside) positive

theorem place_injOn : {path | RowMajor.InBounds (dims type) path}.InjOn (place type) := by
  have positive : 0 < scalarSlots type := by
    rw [scalarSlots]
    split <;> decide
  intro path inside other otherInside equal
  exact RowMajor.flatIndex_injective inside otherInside (Nat.eq_of_mul_eq_mul_left positive equal)

/-- Every component is accessed at its place, if the slots are counted without overflow and
components of vectors are a slot each. -/
theorem flattenVarArrays_eq (nest : IsNest type) {chain : List UInt32}
    (inBounds : InBounds type chain)
    (small : scalarSlots type * (dims type).prod < 2 ^ 32)
    (dense : numComponents type chain = 1 ∨ scalarSlots type = 1)
    (indexed : chain ≠ [] ∨ 1 < numComponents type chain) :
    ∃ indices, flattenVarArrays type chain = some indices ∧
      indices.map UInt32.toNat = (List.range (numComponents type chain)).map fun i =>
        place type (componentPath type chain i) := by
  have positive := numComponents_pos nest inBounds
  have index := toNat_chainIndex nest inBounds none
  have placed {i : Nat} (inside : i < numComponents type chain) :
      place type (componentPath type chain i) < 2 ^ 32 :=
    Nat.lt_trans (place_lt (componentPath_spec nest inBounds inside).1) small
  rw [Option.getD_none, UInt32.toNat_zero, Nat.zero_add, Nat.mod_eq_of_lt (placed positive)]
    at index
  rw [flattenVarArrays]
  split
  next several =>
    have slots : scalarSlots type = 1 := dense.resolve_left (by omega)
    refine ⟨_, rfl, ?_⟩
    rw [List.map_map]
    apply List.map_congr_left
    intro i member
    have inside := List.mem_range.mp member
    have next : place type (componentPath type chain i) =
        place type (componentPath type chain 0) + i := by
      rw [place, place, (componentPath_spec nest inBounds inside).2, slots, Nat.one_mul,
        Nat.one_mul]
    rw [Function.comp_apply, toNat_finalIndex, index, next, Nat.mod_eq_of_lt (next ▸ placed inside)]
  next single =>
    have one : numComponents type chain = 1 := by omega
    obtain ⟨found, isFound⟩ := exists_chainIndex (indexed.resolve_right single)
    rw [isFound, Option.getD_some] at index
    refine ⟨[found], by rw [isFound]; rfl, ?_⟩
    rw [one, List.map_singleton, index]
    rfl

end Indices

section Initializer

variable {vectorElements : Nat}

/-- The elements are laid out one after the other when they have one size. -/
theorem flattenElements_spec {size : Nat} {elements : List Constant}
    (sizes : ∀ element ∈ elements,
      (flattenConstantInitializer vectorElements element).length = size) :
    (flattenElements vectorElements elements).length = elements.length * size ∧
      ∀ index r, r < size → (flattenElements vectorElements elements)[index * size + r]? =
        elements[index]?.bind fun element =>
          (flattenConstantInitializer vectorElements element)[r]? := by
  induction elements with
  | nil => simp [flattenElements]
  | cons element elements inductionHypothesis =>
      have size := sizes element List.mem_cons_self
      obtain ⟨length, entries⟩ := inductionHypothesis
        fun element member => sizes element (List.mem_cons_of_mem _ member)
      constructor
      · rw [flattenElements, List.length_append, length, size, List.length_cons, Nat.succ_mul,
          Nat.add_comm]
      · intro index r inside
        rw [flattenElements]
        cases index with
        | zero =>
            rw [Nat.zero_mul, Nat.zero_add, List.getElem?_append_left (by omega)]
            rfl
        | succ index =>
            rw [Nat.succ_mul, List.getElem?_append_right (by omega), size,
              List.getElem?_cons_succ, ← entries index r inside]
            congr 1
            omega

theorem valueAtElement_eq (index : Nat) (path : List Nat) (elements : List Constant) :
    valueAtElement index path elements = elements[index]?.bind (Constant.valueAt path) := by
  induction elements generalizing index with
  | nil => simp [valueAtElement]
  | cons element elements inductionHypothesis =>
      cases index with
      | zero => rfl
      | succ index => exact inductionHypothesis index

/-- The elements of an array of constants are at their places when those of each constant are. -/
theorem getElem?_flattenElements {lengths : List Nat} {elements : List Constant}
    (sizes : ∀ element ∈ elements,
      (flattenConstantInitializer vectorElements element).length = lengths.prod)
    (values : ∀ element ∈ elements, ∀ path, RowMajor.InBounds lengths path → ∃ value,
      element.valueAt path = some value ∧
        (flattenConstantInitializer vectorElements element)[RowMajor.flatIndex lengths path]? =
          some value)
    {path : List Nat} (inside : RowMajor.InBounds (elements.length :: lengths) path) :
    ∃ value, (Constant.node elements).valueAt path = some value ∧
      (flattenElements vectorElements elements)[
        RowMajor.flatIndex (elements.length :: lengths) path]? = some value := by
  cases inside with
  | @cons index _ path _ less inner =>
      have bound := RowMajor.flatIndex_lt inner
      have present := List.getElem?_eq_getElem less
      obtain ⟨value, given, written⟩ := values elements[index] (List.getElem_mem less) path inner
      refine ⟨value, ?_, ?_⟩
      · rw [Constant.valueAt, valueAtElement_eq, present]
        exact given
      · have entry := (flattenElements_spec sizes).2 index _ bound
        rw [present] at entry
        exact entry.trans written

theorem getElem?_flatten_leaf (values : Nat → BitVec 64) {path : List Nat}
    (inside : RowMajor.InBounds [vectorElements] path) :
    ∃ value, (Constant.leaf values).valueAt path = some value ∧
      (flattenConstantInitializer vectorElements (.leaf values))[
        RowMajor.flatIndex [vectorElements] path]? = some value := by
  cases inside with
  | @cons index _ path _ less inner =>
      cases inner with
      | nil =>
          refine ⟨values index, rfl, ?_⟩
          simp [flattenConstantInitializer, RowMajor.flatIndex, RowMajor.offset, less]

theorem flattenConstantInitializer_spec {type : GlslType} {constant : Constant}
    (nest : IsNest type) (shaped : Shaped type constant) :
    (flattenConstantInitializer (getVectorElements type.withoutArray) constant).length =
        (dims type).prod ∧
      ∀ path, RowMajor.InBounds (dims type) path → ∃ value,
        constant.valueAt path = some value ∧
          (flattenConstantInitializer (getVectorElements type.withoutArray) constant)[
            RowMajor.flatIndex (dims type) path]? = some value := by
  fun_induction IsNest type generalizing constant with
  | case1 element length stride inductionHypothesis =>
      cases constant with
      | leaf => exact shaped.elim
      | node elements =>
          obtain ⟨rfl, shapes⟩ := shaped
          have each := fun constant member =>
            inductionHypothesis nest.2 (shapes constant member)
          constructor
          · exact ((flattenElements_spec fun constant member => (each constant member).1).1).trans
              List.prod_cons.symm
          · intro path inside
            exact getElem?_flattenElements (fun constant member => (each constant member).1)
              (fun constant member => (each constant member).2) inside
  | case2 size rows columns =>
      cases constant with
      | leaf => exact shaped.elim
      | node elements =>
          obtain ⟨rfl, leaves⟩ := shaped
          have sizes : ∀ constant ∈ elements,
              (flattenConstantInitializer rows constant).length = [rows].prod := by
            intro constant member
            obtain ⟨values, rfl⟩ := leaves constant member
            simp [flattenConstantInitializer]
          constructor
          · exact (flattenElements_spec sizes).1.trans List.prod_cons.symm
          · intro path inside
            apply getElem?_flattenElements sizes _ inside
            intro constant member path inner
            obtain ⟨values, rfl⟩ := leaves constant member
            exact getElem?_flatten_leaf values inner
  | case3 size vectorElements =>
      cases constant with
      | node => exact shaped.elim
      | leaf values =>
          constructor
          · rw [prod_dims_vector]
            simp [flattenConstantInitializer, getVectorElements, withoutArray]
          · intro path inside
            rw [dims] at inside ⊢
            split at inside
            next single =>
              cases inside
              refine ⟨values 0, rfl, ?_⟩
              simp [flattenConstantInitializer, getVectorElements, withoutArray, single,
                RowMajor.flatIndex, RowMajor.offset]
            next several =>
              rw [if_neg several]
              exact getElem?_flatten_leaf values inside
  | case4 => exact nest.elim

end Initializer

section Chains

variable {type : GlslType}

theorem componentPath_cons (index : UInt32) (chain : List UInt32) (i : Nat) :
    componentPath type (index :: chain) i =
      index.toNat :: componentPath type.getArrayElement chain i := rfl

/-- Vectors that are accessed whole are those of the innermost type. -/
theorem numComponents_eq (nest : IsNest type) {chain : List UInt32}
    (inBounds : InBounds type chain) :
    numComponents type chain = 1 ∨
      numComponents type chain = getVectorElements type.withoutArray := by
  fun_induction InBounds type chain with
  | case1 element length stride index chain inductionHypothesis =>
      exact inductionHypothesis nest.2 inBounds.2
  | case2 size rows columns stride rowMajor index chain inductionHypothesis =>
      obtain ⟨several, few, -, -⟩ := nest
      exact inductionHypothesis ⟨by omega, by omega⟩ inBounds.2
  | case3 => exact Or.inl rfl
  | case4 => exact Or.inr rfl
  | case5 => exact inBounds.elim

theorem exists_chain (nest : IsNest type) {path : List Nat}
    (inside : RowMajor.InBounds (dims type) path) :
    ∃ chain, InBounds type chain ∧ numComponents type chain = 1 ∧
      componentPath type chain 0 = path := by
  fun_induction IsNest type generalizing path with
  | case1 element length stride inductionHypothesis =>
      cases inside with
      | @cons index _ path _ less inner =>
          obtain ⟨chain, inBounds, one, isPath⟩ := inductionHypothesis nest.2 inner
          have same : (UInt32.ofNat index).toNat = index :=
            UInt32.toNat_ofNat_of_lt' (Nat.lt_trans less nest.1)
          refine ⟨UInt32.ofNat index :: chain, ⟨same.symm ▸ less, inBounds⟩, one, ?_⟩
          rw [componentPath_cons, same]
          exact congrArg _ isPath
  | case2 size rows columns stride rowMajor =>
      obtain ⟨several, fewRows, -, fewColumns⟩ := nest
      cases inside with
      | @cons column _ _ _ lessColumn inner =>
          cases inner with
          | @cons row _ _ _ lessRow inner =>
              cases inner with
              | nil =>
                  have small {k : Nat} (less : k < 4) : (UInt32.ofNat k).toNat = k :=
                    UInt32.toNat_ofNat_of_lt' (Nat.lt_trans less (by decide))
                  have sameColumn := small (Nat.lt_of_lt_of_le lessColumn fewColumns)
                  have sameRow := small (Nat.lt_of_lt_of_le lessRow fewRows)
                  refine ⟨[UInt32.ofNat column, UInt32.ofNat row], ⟨?_, by omega, ?_⟩, rfl, ?_⟩
                  · rw [sameColumn]
                    exact lessColumn
                  · rw [sameRow]
                    exact lessRow
                  · rw [componentPath_cons, componentPath_cons, sameColumn, sameRow]
                    rfl
  | case3 size vectorElements =>
      rw [dims] at inside
      split at inside
      next single =>
        subst single
        cases inside
        exact ⟨[], trivial, rfl, rfl⟩
      next several =>
        cases inside with
        | @cons index _ _ _ less inner =>
            cases inner with
            | nil =>
                have some := nest.1
                have same : (UInt32.ofNat index).toNat = index :=
                  UInt32.toNat_ofNat_of_lt'
                    (Nat.lt_trans (Nat.lt_of_lt_of_le less nest.2) (by decide))
                refine ⟨[UInt32.ofNat index], ⟨by omega, same.symm ▸ less⟩, rfl, ?_⟩
                rw [componentPath_cons, same]
                rfl
  | case4 => exact nest.elim

theorem exists_vector_chain (nest : IsNest type) (nonempty : (dims type).prod ≠ 0)
    (several : 1 < getVectorElements type.withoutArray) :
    ∃ chain, InBounds type chain ∧
      numComponents type chain = getVectorElements type.withoutArray ∧
      place type (componentPath type chain 0) = 0 ∧ InBounds type (chain ++ [1]) ∧
      numComponents type (chain ++ [1]) = 1 ∧
      componentPath type (chain ++ [1]) 0 = componentPath type chain 1 := by
  fun_induction IsNest type with
  | case1 element length stride inductionHypothesis =>
      rw [dims, List.prod_cons] at nonempty
      obtain ⟨chain, inBounds, whole, first, inAlone, alone, same⟩ := inductionHypothesis nest.2
        (Nat.ne_zero_of_mul_ne_zero_right nonempty) several
      have positive : (0 : UInt32).toNat < length :=
        Nat.pos_of_ne_zero (Nat.ne_zero_of_mul_ne_zero_left nonempty)
      refine ⟨0 :: chain, ⟨positive, inBounds⟩, whole, ?_, ⟨positive, inAlone⟩, alone, ?_⟩
      · rw [place, Nat.mul_eq_zero] at first ⊢
        apply first.imp_right
        intro zero
        rw [componentPath_cons, dims, RowMajor.flatIndex, RowMajor.offset, ← RowMajor.flatIndex]
        exact (congrArg _ zero).trans (Nat.zero_mul _)
      · exact congrArg (List.cons 0) same
  | case2 size rows columns stride rowMajor =>
      obtain ⟨-, -, columnsSome, -⟩ := nest
      have positive : (0 : UInt32).toNat < columns := Nat.lt_of_lt_of_le Nat.zero_lt_two columnsSome
      have whole : ¬ numComponents (.matrix size rows columns stride rowMajor) [0] = 1 :=
        Nat.ne_of_gt several
      refine ⟨[0], ⟨positive, trivial⟩, rfl, ?_, ⟨positive, several, several⟩, rfl, ?_⟩
      · simp [place, componentPath, whole, dims, RowMajor.flatIndex, RowMajor.offset]
      · rw [componentPath, componentPath, if_neg whole]
        rfl
  | case3 size vectorElements =>
      have whole : ¬ numComponents (.vector size vectorElements) [] = 1 := Nat.ne_of_gt several
      refine ⟨[], trivial, rfl, ?_, ⟨several, several⟩, rfl, ?_⟩
      · have more : ¬ vectorElements = 1 := whole
        simp [place, componentPath, whole, dims, more, RowMajor.flatIndex, RowMajor.offset]
      · rw [componentPath, componentPath, if_neg whole]
        rfl
  | case4 => exact nest.elim

end Chains

section Preserves

variable {type : GlslType} {constantInitializer : Option Constant}

/-- The initializer is laid out as the components are accessed: there are no components, or they
are slots of an `unsigned` number, and not of 64 bits or scalars with at most one initial value. -/
def LaidOut (type : GlslType) (constantInitializer : Option Constant) : Prop :=
  (dims type).prod = 0 ∨ scalarSlots type * (dims type).prod < 2 ^ 32 ∧
    (bitSize type.withoutArray ≠ 64 ∨ getVectorElements type.withoutArray = 1 ∧
      (constantInitializer = none ∨ (dims type).prod = 1))

theorem scalarSlots_eq_one_iff : scalarSlots type = 1 ↔ bitSize type.withoutArray ≠ 64 := by
  rw [scalarSlots]
  split <;> simp_all

theorem prod_ne_zero (nest : IsNest type) {chain : List UInt32} (inBounds : InBounds type chain) :
    (dims type).prod ≠ 0 :=
  Nat.ne_of_gt (RowMajor.prod_pos_of_inBounds
    (componentPath_spec nest inBounds (numComponents_pos nest inBounds)).1)

theorem flattenVarArrayTypes_eq_some {flat : Flattened} :
    flattenVarArrayTypes type constantInitializer = some flat ↔
      ¬ (isArrayOfArrays type = false ∧ getComponents type.withoutArray = 1) ∧
        flat = ⟨type.getComponentSlots, constantInitializer.map
          (flattenConstantInitializer (getVectorElements type.withoutArray))⟩ := by
  rw [flattenVarArrayTypes, Option.ite_none_left_eq_some, Option.some.injEq, eq_comm (b := flat)]

theorem indexed_of_changed
    (changed : ¬ (isArrayOfArrays type = false ∧ getComponents type.withoutArray = 1))
    (nest : IsNest type) {chain : List UInt32} (inBounds : InBounds type chain) :
    chain ≠ [] ∨ 1 < numComponents type chain := by
  cases chain with
  | cons => exact Or.inl (List.cons_ne_nil _ _)
  | nil =>
      right
      obtain ⟨size, vectorElements, rfl⟩ := inBounds_nil inBounds
      have several : vectorElements ≠ 1 := fun single => changed ⟨rfl, single⟩
      exact Nat.lt_of_le_of_ne nest.1 several.symm

/-- Without overflow and with one slot for each component that is part of a vector, components are
accessed at their places. -/
theorem flattened_eq (nest : IsNest type)
    (changed : ¬ (isArrayOfArrays type = false ∧ getComponents type.withoutArray = 1))
    (small : scalarSlots type * (dims type).prod < 2 ^ 32)
    (dense : getVectorElements type.withoutArray = 1 ∨ scalarSlots type = 1) {access : VarAccess}
    (inBounds : InBounds type access.chain) :
    access.flattened type type.getComponentSlots =
      some ((access.original type).map (place type)) := by
  have length := getComponentSlots_eq nest
  rw [Nat.mod_eq_of_lt small] at length
  obtain ⟨indices, found, keys⟩ := flattenVarArrays_eq nest inBounds small
    ((numComponents_eq nest inBounds).elim Or.inl fun whole =>
      dense.imp_left fun scalar => whole.trans scalar)
    (indexed_of_changed changed nest inBounds)
  have below : ∀ key ∈ indices.map UInt32.toNat, key < type.getComponentSlots := by
    rw [keys, length]
    intro key member
    obtain ⟨i, inside, rfl⟩ := List.mem_map.mp member
    exact place_lt (componentPath_spec nest inBounds (List.mem_range.mp inside)).1
  rw [VarAccess.flattened, found]
  dsimp only
  rw [if_pos below, keys, VarAccess.original, Cells.Access.map, List.map_map]
  rfl

theorem accessedElement_eq (nest : IsNest type)
    (changed : ¬ (isArrayOfArrays type = false ∧ getComponents type.withoutArray = 1))
    (small : scalarSlots type * (dims type).prod < 2 ^ 32)
    (dense : getVectorElements type.withoutArray = 1 ∨ scalarSlots type = 1)
    {chain : List UInt32} (inBounds : InBounds type chain) {i : Nat}
    (inside : i < numComponents type chain) :
    accessedElement type chain i = some (place type (componentPath type chain i)) := by
  obtain ⟨indices, found, keys⟩ := flattenVarArrays_eq nest inBounds small
    ((numComponents_eq nest inBounds).elim Or.inl fun whole =>
      dense.imp_left fun scalar => whole.trans scalar)
    (indexed_of_changed changed nest inBounds)
  have entry := congrArg (·[i]?) keys
  simp only [List.getElem?_map, List.getElem?_range inside, Option.map_some] at entry
  obtain ⟨index, isIndex, isPlace⟩ := Option.map_eq_some_iff.mp entry
  rw [accessedElement, found, Option.bind_eq_bind, Option.bind_some, isIndex,
    Option.bind_eq_bind, Option.bind_some, isPlace]

theorem preserves_of_laidOut (nest : IsNest type)
    (shaped : ∀ constant ∈ constantInitializer, Shaped type constant)
    (laidOut : LaidOut type constantInitializer) : Preserves type constantInitializer := by
  intro flat isFlat
  obtain ⟨changed, rfl⟩ := flattenVarArrayTypes_eq_some.mp isFlat
  rcases laidOut with empty | ⟨small, fits⟩
  · constructor
    · intro chain _ _ _ inBounds
      exact absurd empty (prod_ne_zero nest inBounds)
    · intro program valid
      cases program with
      | nil => exact ⟨[], rfl, rfl⟩
      | cons access program =>
          exact absurd empty (prod_ne_zero nest (valid access List.mem_cons_self).1)
  have dense : getVectorElements type.withoutArray = 1 ∨ scalarSlots type = 1 :=
    fits.symm.imp And.left scalarSlots_eq_one_iff.mpr
  have length := getComponentSlots_eq nest
  rw [Nat.mod_eq_of_lt small] at length
  constructor
  · intro chain chain' i i' inBounds inBounds' inside inside'
    have within := (componentPath_spec nest inBounds inside).1
    refine ⟨_, _, accessedElement_eq nest changed small dense inBounds inside,
      accessedElement_eq nest changed small dense inBounds' inside', ?_, ?_⟩
    · exact length.symm ▸ place_lt within
    · intro distinct same
      exact distinct (place_injOn within (componentPath_spec nest inBounds' inside').1 same)
  · intro program valid
    refine ⟨_, mapM_eq_some_map fun access member =>
      flattened_eq nest changed small dense (valid access member).1, ?_⟩
    have agree : Cells.Agree (place type) {path | RowMajor.InBounds (dims type) path}
        (initial constantInitializer) (Flattened.initial ⟨type.getComponentSlots,
          constantInitializer.map
            (flattenConstantInitializer (getVectorElements type.withoutArray))⟩) := by
      intro path inside
      cases constantInitializer with
      | none => rfl
      | some constant =>
          obtain ⟨value, given, written⟩ :=
            (flattenConstantInitializer_spec nest (shaped constant rfl)).2 path inside
          have same : place type path = RowMajor.flatIndex (dims type) path := by
            have bound := RowMajor.flatIndex_lt inside
            rw [place]
            rcases fits with narrow | ⟨-, uninitialized | single⟩
            · rw [scalarSlots_eq_one_iff.mpr narrow, Nat.one_mul]
            · cases uninitialized
            · have zero : RowMajor.flatIndex (dims type) path = 0 := by omega
              rw [zero, Nat.mul_zero]
          rw [same]
          exact written.trans given.symm
    rw [← agree.run_eq place_injOn, List.map_map]
    · rfl
    · intro access member key isKey
      obtain ⟨varAccess, present, rfl⟩ := List.mem_map.mp member
      obtain ⟨i, inside, rfl⟩ := List.mem_map.mp isKey
      exact (componentPath_spec nest (valid varAccess present).1 (List.mem_range.mp inside)).1

theorem one_le_getVectorElements (nest : IsNest type) :
    1 ≤ getVectorElements type.withoutArray := by
  fun_induction IsNest type with
  | case1 element length stride inductionHypothesis => exact inductionHypothesis nest.2
  | case2 => exact Nat.le_of_lt nest.1
  | case3 => exact nest.1
  | case4 => exact nest.elim

/-- A component that is accessed alone has its place modulo the range of `unsigned`. -/
theorem flattenVarArrays_single (nest : IsNest type) {chain : List UInt32}
    (inBounds : InBounds type chain) (one : numComponents type chain = 1) {indices : List UInt32}
    (found : flattenVarArrays type chain = some indices) :
    indices.map UInt32.toNat = [place type (componentPath type chain 0) % 2 ^ 32] := by
  have index := toNat_chainIndex nest inBounds none
  rw [flattenVarArrays, one, if_neg (by decide)] at found
  obtain ⟨only, isOnly, rfl⟩ := Option.map_eq_some_iff.mp found
  rw [isOnly, Option.getD_some, Option.getD_none, UInt32.toNat_zero, Nat.zero_add] at index
  rw [List.map_singleton, index]

theorem flattened_single (nest : IsNest type) {access : VarAccess} {length : Nat}
    (inBounds : InBounds type access.chain) (one : numComponents type access.chain = 1)
    {flat : Cells.Access Nat (BitVec 64)} (isFlat : access.flattened type length = some flat) :
    flat = ⟨[place type (componentPath type access.chain 0) % 2 ^ 32], access.op⟩ := by
  rw [VarAccess.flattened] at isFlat
  cases found : flattenVarArrays type access.chain with
  | none =>
      rw [found] at isFlat
      cases isFlat
  | some indices =>
      rw [found] at isFlat
      obtain ⟨-, ⟨⟩⟩ := Option.ite_none_right_eq_some.mp isFlat
      rw [flattenVarArrays_single nest inBounds one found]

/-- The first vector, accessed whole, is at the first elements. -/
theorem flattened_vector (nest : IsNest type) {access : VarAccess} {length : Nat}
    (inBounds : InBounds type access.chain) (several : 1 < numComponents type access.chain)
    (first : place type (componentPath type access.chain 0) = 0)
    {flat : Cells.Access Nat (BitVec 64)} (isFlat : access.flattened type length = some flat) :
    ∃ keys, flat = ⟨keys, access.op⟩ ∧ keys[1]? = some 1 := by
  have index := toNat_chainIndex nest inBounds none
  rw [first] at index
  rw [VarAccess.flattened, flattenVarArrays, if_pos several] at isFlat
  obtain ⟨-, ⟨⟩⟩ := Option.ite_none_right_eq_some.mp isFlat
  refine ⟨_, rfl, ?_⟩
  simp [several, toNat_finalIndex, index]

theorem scalarSlots_cases (type : GlslType) : scalarSlots type = 1 ∨ scalarSlots type = 2 := by
  rw [scalarSlots]
  split
  · exact Or.inr rfl
  · exact Or.inl rfl

/-- The element at the length of the array would be accessed. -/
theorem small_of_keepsApart (nest : IsNest type)
    (apart : KeepsApart type type.getComponentSlots) :
    scalarSlots type * (dims type).prod < 2 ^ 32 := by
  have slots := scalarSlots_cases type
  have length := getComponentSlots_eq nest
  by_contra large
  have bound : type.getComponentSlots / scalarSlots type < (dims type).prod := by
    rw [length]
    rcases slots with one | two
    · rw [one] at large ⊢
      omega
    · rw [two] at large ⊢
      omega
  obtain ⟨path, inside, isIndex⟩ := RowMajor.exists_flatIndex bound
  obtain ⟨chain, inBounds, one, isPath⟩ := exists_chain nest inside
  obtain ⟨element, -, accessed, -, less, -⟩ :=
    apart chain chain 0 0 inBounds inBounds (by omega) (by omega)
  obtain ⟨indices, found, isElement⟩ := Option.bind_eq_some_iff.mp accessed
  have index := flattenVarArrays_single nest inBounds one found
  rw [isPath, place, isIndex] at index
  obtain ⟨only, rfl⟩ : ∃ only, indices = [only] := by
    apply List.length_eq_one_iff.mp
    rw [← List.length_map UInt32.toNat, index, List.length_singleton]
  cases isElement
  have isLength := (List.cons_eq_cons.mp index).1
  have back : scalarSlots type * (type.getComponentSlots / scalarSlots type) =
      type.getComponentSlots := by
    rw [length]
    rcases slots with one | two
    · rw [one]
      omega
    · rw [two]
      omega
  rw [back, Nat.mod_eq_of_lt (by rw [length]; exact Nat.mod_lt _ (by decide))] at isLength
  exact Nat.ne_of_lt less isLength

/-- The second component of a vector of 64-bit components is stored alone, and then lost when the
vector is loaded. -/
theorem scalar_of_keepsValues (nest : IsNest type) (nonempty : (dims type).prod ≠ 0)
    (two : scalarSlots type = 2) {flat : Flattened}
    (values : KeepsValues type constantInitializer flat) :
    getVectorElements type.withoutArray = 1 := by
  by_contra vector
  have several : 1 < getVectorElements type.withoutArray :=
    Nat.lt_of_le_of_ne (one_le_getVectorElements nest) (Ne.symm vector)
  obtain ⟨chain, inBounds, whole, first, inAlone, alone, same⟩ :=
    exists_vector_chain nest nonempty several
  have second : place type (componentPath type (chain ++ [1]) 0) % 2 ^ 32 = 2 := by
    rw [same, place, (componentPath_spec nest inBounds (whole ▸ several)).2, Nat.mul_add,
      ← place, first, two]
    rfl
  have lost (x : BitVec 64) : flat.initial 1 = some x := by
    let stored : VarAccess := ⟨chain ++ [1], .store (fun _ => true) fun _ => x⟩
    let loaded : VarAccess := ⟨chain, .load⟩
    obtain ⟨accesses, areFlat, equal⟩ := values [stored, loaded] (by
      simp [VarAccess.Valid, stored, loaded, inBounds, inAlone])
    simp only [List.mapM_cons, List.mapM_nil, Option.bind_eq_bind, Option.bind_eq_some_iff]
      at areFlat
    obtain ⟨flatStored, isStored, _, ⟨flatLoaded, isLoaded, _, ⟨⟩, ⟨⟩⟩, ⟨⟩⟩ := areFlat
    obtain ⟨keys, rfl, isKey⟩ := flattened_vector nest inBounds (whole ▸ several) first isLoaded
    obtain rfl := flattened_single nest inAlone alone isStored
    rw [second] at equal
    have component := congrArg (fun loads => loads[1]?.bind (·[1]?)) equal
    simp [Cells.run, Cells.Access.exec, stored, loaded, Cells.storeFrom, isKey,
      VarAccess.original, alone, whole, several, same] at component
    exact component
  have zero := lost 0
  rw [lost 1] at zero
  cases zero

/-- The last scalar of 64 bits is accessed past the initial values. -/
theorem single_of_keepsValues (nest : IsNest type) {constant : Constant}
    (shaped : Shaped type constant) (nonempty : (dims type).prod ≠ 0)
    (two : scalarSlots type = 2) (small : scalarSlots type * (dims type).prod < 2 ^ 32)
    (values : KeepsValues type (some constant) ⟨type.getComponentSlots,
      some (flattenConstantInitializer (getVectorElements type.withoutArray) constant)⟩) :
    (dims type).prod = 1 := by
  by_contra several
  obtain ⟨size, given⟩ := flattenConstantInitializer_spec nest shaped
  obtain ⟨path, inside, isIndex⟩ := RowMajor.exists_flatIndex
    (Nat.sub_one_lt nonempty : (dims type).prod - 1 < (dims type).prod)
  obtain ⟨chain, inBounds, one, isPath⟩ := exists_chain nest inside
  obtain ⟨value, isValue, -⟩ := given path inside
  obtain ⟨accesses, areFlat, equal⟩ := values [⟨chain, .load⟩] (by
    simp [VarAccess.Valid, inBounds])
  simp only [List.mapM_cons, List.mapM_nil, Option.bind_eq_bind, Option.bind_eq_some_iff]
    at areFlat
  obtain ⟨flatLoaded, isLoaded, _, ⟨⟩, ⟨⟩⟩ := areFlat
  have last : place type path % 2 ^ 32 = 2 * ((dims type).prod - 1) := by
    rw [place, isIndex, two]
    rw [two] at small
    omega
  have unwritten : (flattenConstantInitializer (getVectorElements type.withoutArray)
      constant)[2 * ((dims type).prod - 1)]? = none := by
    rw [List.getElem?_eq_none_iff, size]
    omega
  have isFlat := flattened_single nest inBounds one isLoaded
  dsimp only at isFlat
  rw [isPath, last] at isFlat
  subst isFlat
  simp [Cells.run, Cells.Access.exec, VarAccess.original, one, isPath, initial,
    Flattened.initial, isValue, unwritten] at equal

theorem laidOut_of_preserves (nest : IsNest type)
    (shaped : ∀ constant ∈ constantInitializer, Shaped type constant)
    (changed : ¬ (isArrayOfArrays type = false ∧ getComponents type.withoutArray = 1))
    (preserves : Preserves type constantInitializer) : LaidOut type constantInitializer := by
  obtain ⟨apart, values⟩ := preserves _ (flattenVarArrayTypes_eq_some.mpr ⟨changed, rfl⟩)
  by_cases empty : (dims type).prod = 0
  · exact Or.inl empty
  have small := small_of_keepsApart nest apart
  right
  refine ⟨small, or_iff_not_imp_left.mpr fun wide => ?_⟩
  rw [← scalarSlots_eq_one_iff] at wide
  have two : scalarSlots type = 2 := (scalarSlots_cases type).resolve_left wide
  refine ⟨scalar_of_keepsValues nest empty two values, ?_⟩
  cases constantInitializer with
  | none => exact Or.inl rfl
  | some constant =>
      exact Or.inr (single_of_keepsValues nest (shaped constant rfl) empty two small values)

/-- A variable that is not an array of scalars or a scalar is right after the pass if it has no
components, or so many slots as are counted and components of less than 64 bits, or else of 64
bits if these are scalars of which at most one is initialized. -/
theorem flatten_preserves_iff (nest : IsNest type)
    (shaped : ∀ constant ∈ constantInitializer, Shaped type constant) :
    Preserves type constantInitializer ↔
      isArrayOfArrays type = false ∧ getComponents type.withoutArray = 1 ∨
        LaidOut type constantInitializer := by
  constructor
  · intro preserves
    rw [or_iff_not_imp_left]
    exact fun changed => laidOut_of_preserves nest shaped changed preserves
  · rintro (unchanged | laidOut)
    · intro flat isFlat
      exact absurd unchanged (flattenVarArrayTypes_eq_some.mp isFlat).1
    · exact preserves_of_laidOut nest shaped laidOut

/-- Two rows of two doubles. -/
def doubleTable : GlslType := .array (.array (.vector 64 1) 2 0) 2 0

def doubleRow : Constant := .node [.leaf fun _ => 1, .leaf fun _ => 2]

theorem isNest_doubleTable : IsNest doubleTable :=
  ⟨by decide, by decide, by decide, by decide⟩

theorem shaped_doubleRow : Shaped doubleTable (.node [doubleRow, doubleRow]) := by
  refine ⟨rfl, fun row member => ?_⟩
  obtain rfl : row = doubleRow := by simpa using member
  refine ⟨rfl, fun element isElement => ?_⟩
  obtain rfl | rfl : element = .leaf _ ∨ element = .leaf _ := by
    simpa using isElement
  · trivial
  · trivial

theorem flatten_preserves_iff_doubleTable :
    Preserves doubleTable (some (.node [doubleRow, doubleRow])) ↔
      isArrayOfArrays doubleTable = false ∧ getComponents doubleTable.withoutArray = 1 ∨
        LaidOut doubleTable (some (.node [doubleRow, doubleRow])) := by
  apply flatten_preserves_iff isNest_doubleTable
  rintro constant ⟨⟩
  exact shaped_doubleRow

/-- The last of the doubles does not have its initial value, and in a variable of one vector the
second double, stored alone, is lost. -/
theorem not_flatten_preserves :
    ¬ Preserves doubleTable (some (.node [doubleRow, doubleRow])) ∧
      ¬ Preserves (.vector 64 2) none := by
  constructor
  · intro preserves
    have values := (preserves _ rfl).2
    have single := single_of_keepsValues isNest_doubleTable shaped_doubleRow (by decide) rfl
      (by decide) values
    cases single
  · intro preserves
    have nest : IsNest (.vector 64 2) := ⟨by decide, by decide⟩
    cases scalar_of_keepsValues nest (by decide) rfl (preserves _ rfl).2

end Preserves

end FlattenVarArrays

end SpirvToDxil
