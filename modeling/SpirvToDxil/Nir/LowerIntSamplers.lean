import Mathlib.Algebra.Order.Ring.Int
import Mathlib.Data.List.Basic

/-!
# Sampling integer textures by texel fetches

`dxil_nir_lower_int_samplers.c`. A sample becomes a fetch at the floored coordinate after the
wrap mode was applied to it, or the border color. Float operations are exact here: coordinates
and sizes are integers.
-/

namespace SpirvToDxil.Nir.LowerIntSamplers

inductive TexWrap where
  | wrapRepeat
  | clamp
  | clampToEdge
  | clampToBorder
  | mirrorRepeat
  | mirrorClamp
  | mirrorClampToEdge
  | mirrorClampToBorder
  deriving DecidableEq, Repr

structure WrapResult where
  coords : Int
  useBorderColor : Bool
  deriving DecidableEq, Repr

def wrapClampToEdge (wrapParams : WrapResult) (size : Int) : WrapResult :=
  { wrapParams with coords := min (size + -1) (max wrapParams.coords 0) }

def wrapRepeat (wrapParams : WrapResult) (size : Int) : WrapResult :=
  { wrapParams with coords := wrapParams.coords.fmod size }

def mirror (coord : Int) : Int :=
  if coord ≥ 0 then coord else -(coord + 1)

def wrapMirrorRepeat (wrapParams : WrapResult) (size : Int) : WrapResult :=
  let coordMod2Size := wrapParams.coords.fmod (size * 2)
  let a := coordMod2Size - size
  { wrapParams with coords := (size + -1) - mirror a }

def wrapMirrorClampToEdge (wrapParams : WrapResult) (size : Int) : WrapResult :=
  { wrapParams with coords := min (size + -1) (max (mirror wrapParams.coords) 0) }

def wrapClamp (wrapParams : WrapResult) (size : Int) : WrapResult :=
  let isLow := decide (wrapParams.coords < 0)
  let isHigh := decide (wrapParams.coords ≥ size)
  { wrapParams with useBorderColor := isLow || isHigh }

def wrapMirrorClamp (wrapParams : WrapResult) (size : Int) : WrapResult :=
  let isLow := decide (wrapParams.coords < size * -1)
  let isHigh := decide (size * 2 < wrapParams.coords)
  wrapMirrorRepeat { wrapParams with useBorderColor := isLow || isHigh } size

def wrapCoords (coords : Int) (wrap : TexWrap) (size : Int) : WrapResult :=
  let result : WrapResult := ⟨coords, false⟩
  match wrap with
  | .clampToEdge => wrapClampToEdge result size
  | .wrapRepeat => SpirvToDxil.Nir.LowerIntSamplers.wrapRepeat result size
  | .mirrorRepeat => wrapMirrorRepeat result size
  | .mirrorClamp | .mirrorClampToEdge => wrapMirrorClampToEdge result size
  | .clamp | .clampToBorder => wrapClamp result size
  | .mirrorClampToBorder => wrapMirrorClamp result size

/-- The part of a fetch that the wrap modes decide: the coordinates of the texel, or `none` for
the border color. `layer` is the rounded array index with the number of layers, which is
clamped whatever the sampler says. -/
def fetchCoords (skipBoundaryConditions : Bool) (axes : List (Int × TexWrap × Int))
    (layer : Option (Int × Int)) : Option (List Int) :=
  let layerCoords := fun wrapped : Int × Int → Int => (layer.map wrapped).toList
  if skipBoundaryConditions then
    some (axes.map (fun axis => axis.1) ++ layerCoords fun layer => layer.1)
  else
    let wrap := axes.map fun axis => wrapCoords axis.1 axis.2.1 axis.2.2
    if wrap.any (·.useBorderColor) then none
    else
      some (wrap.map (·.coords) ++
        layerCoords fun layer => (wrapCoords layer.1 .clampToEdge layer.2).coords)

/-! ## The wrap modes -/

namespace TexWrap

/-- The texel index that a mode selects on an axis of `size` texels, or `none` for the border.
A sawtooth of period `2 * size` for the mirrored repeat. -/
def texel (size coord : Int) : TexWrap → Option Int
  | clampToEdge => some (max 0 (min coord (size - 1)))
  | wrapRepeat => some (coord % size)
  | mirrorRepeat =>
    let folded := coord % (2 * size)
    some (if folded < size then folded else 2 * size - 1 - folded)
  | mirrorClamp | mirrorClampToEdge => some (min (mirror coord) (size - 1))
  | clamp | clampToBorder => if 0 ≤ coord ∧ coord < size then some coord else none
  | mirrorClampToBorder => if mirror coord < size then some (mirror coord) else none

end TexWrap

/-- The border flag is set outside the range that the mode samples from, or the coordinate is
a texel's and the mode's. -/
def Agrees (wrap : TexWrap) (size coord : Int) (result : WrapResult) : Prop :=
  (result.useBorderColor = true ∧ wrap.texel size coord = none) ∨
    (result.useBorderColor = false ∧ 0 ≤ result.coords ∧ result.coords ≤ size - 1 ∧
      wrap.texel size coord = some result.coords)

/-- The coordinates past the mirrored copy of the texture that still count as inside it. -/
def PastMirror (wrap : TexWrap) (size coord : Int) : Prop :=
  wrap = .mirrorClampToBorder ∧ size ≤ coord ∧ coord ≤ 2 * size

instance (wrap : TexWrap) (size coord : Int) : Decidable (PastMirror wrap size coord) :=
  inferInstanceAs (Decidable (_ ∧ _))

theorem mirror_nonneg (coord : Int) : 0 ≤ mirror coord := by
  unfold mirror
  split <;> omega

theorem clampToBorder_agrees {wrap : TexWrap} (size coord : Int)
    (mode : wrap = .clamp ∨ wrap = .clampToBorder) :
    Agrees wrap size coord (wrapCoords coord wrap size) := by
  have texel : wrap.texel size coord =
      if 0 ≤ coord ∧ coord < size then some coord else none := by
    cases mode with
    | inl mode | inr mode => rw [mode, TexWrap.texel]
  have wrapped : wrapCoords coord wrap size = wrapClamp ⟨coord, false⟩ size := by
    cases mode with
    | inl mode | inr mode => rw [mode, wrapCoords]
  rw [Agrees, texel, wrapped, wrapClamp]
  by_cases inside : 0 ≤ coord ∧ coord < size
  · apply Or.inr
    rw [if_pos inside]
    refine ⟨?_, inside.1, by simp only; omega, rfl⟩
    simp [inside.1, inside.2]
  · apply Or.inl
    rw [if_neg inside]
    refine ⟨?_, rfl⟩
    simp only [Bool.or_eq_true, decide_eq_true_eq]
    omega

section Modes

variable {size : Int} (positive : 1 ≤ size) (coord : Int)
include positive

theorem fmod_eq : coord.fmod size = coord % size :=
  Int.fmod_eq_emod_of_nonneg coord (by omega)

/-- The repeated mirroring on its two halves. -/
theorem wrapMirrorRepeat_eq (border : Bool) :
    wrapMirrorRepeat ⟨coord, border⟩ size =
      ⟨if coord % (2 * size) < size then coord % (2 * size)
        else 2 * size - 1 - coord % (2 * size), border⟩ := by
  have double : size * 2 = 2 * size := by omega
  simp only [wrapMirrorRepeat, double, fmod_eq (show 1 ≤ 2 * size by omega), mirror]
  split_ifs <;> congr 1 <;> omega

theorem wrapMirrorRepeat_inside (border : Bool) :
    0 ≤ (wrapMirrorRepeat ⟨coord, border⟩ size).coords ∧
      (wrapMirrorRepeat ⟨coord, border⟩ size).coords ≤ size - 1 := by
  have low := Int.emod_nonneg coord (show 2 * size ≠ 0 by omega)
  have high := Int.emod_lt_of_pos coord (show 0 < 2 * size by omega)
  rw [wrapMirrorRepeat_eq positive]
  simp only
  split <;> constructor <;> omega

/-- From one mirrored copy to the left up to the right edge the repetition is a mirror. -/
theorem wrapMirrorRepeat_mirror (low : -size ≤ coord) (high : coord < size) (border : Bool) :
    wrapMirrorRepeat ⟨coord, border⟩ size = ⟨mirror coord, border⟩ := by
  rw [wrapMirrorRepeat_eq positive, mirror]
  by_cases right : 0 ≤ coord
  · rw [Int.emod_eq_of_lt right (by omega), if_pos high, if_pos right]
  · have folded : coord % (2 * size) = coord + 2 * size := by
      rw [← Int.add_emod_right, Int.emod_eq_of_lt (by omega) (by omega)]
    rw [folded, if_neg (by omega), if_neg (by omega)]
    congr 1
    omega

theorem clampToEdge_agrees :
    Agrees .clampToEdge size coord (wrapCoords coord .clampToEdge size) := by
  apply Or.inr
  simp only [wrapCoords, wrapClampToEdge, TexWrap.texel, Option.some_inj]
  refine ⟨trivial, ?_, ?_, ?_⟩ <;> omega

theorem wrapRepeat_agrees :
    Agrees .wrapRepeat size coord (wrapCoords coord .wrapRepeat size) := by
  have low := Int.emod_nonneg coord (show size ≠ 0 by omega)
  have high := Int.emod_lt_of_pos coord (show 0 < size by omega)
  apply Or.inr
  simp only [wrapCoords, LowerIntSamplers.wrapRepeat, fmod_eq positive, TexWrap.texel]
  exact ⟨trivial, low, by omega, trivial⟩

theorem mirrorRepeat_agrees :
    Agrees .mirrorRepeat size coord (wrapCoords coord .mirrorRepeat size) := by
  apply Or.inr
  have inside := wrapMirrorRepeat_inside positive coord false
  have same := wrapMirrorRepeat_eq positive coord false
  refine ⟨?_, inside.1, inside.2, ?_⟩
  · rw [wrapCoords, same]
  · rw [wrapCoords, same, TexWrap.texel]

theorem mirrorClampToEdge_agrees {wrap : TexWrap}
    (mode : wrap = .mirrorClamp ∨ wrap = .mirrorClampToEdge) :
    Agrees wrap size coord (wrapCoords coord wrap size) := by
  have low := mirror_nonneg coord
  apply Or.inr
  cases mode with
  | inl mode | inr mode =>
      simp only [mode, wrapCoords, wrapMirrorClampToEdge, TexWrap.texel, Option.some_inj]
      refine ⟨trivial, ?_, ?_, ?_⟩ <;> omega

/-- The border starts past the second copy on the right and not past the first. -/
theorem mirrorClampToBorder_agrees_iff :
    Agrees .mirrorClampToBorder size coord (wrapCoords coord .mirrorClampToBorder size) ↔
      ¬(size ≤ coord ∧ coord ≤ 2 * size) := by
  have inside := fun border => wrapMirrorRepeat_inside positive coord border
  have flag : (wrapCoords coord .mirrorClampToBorder size).useBorderColor =
      (decide (coord < size * -1) || decide (size * 2 < coord)) := by
    simp only [wrapCoords, wrapMirrorClamp, wrapMirrorRepeat_eq positive]
  have mirrored : mirror coord < size ↔ -size ≤ coord ∧ coord < size := by
    unfold mirror
    split <;> omega
  rw [Agrees, flag, TexWrap.texel]
  by_cases sampled : -size ≤ coord ∧ coord < size
  · have unflagged : (decide (coord < size * -1) || decide (size * 2 < coord)) = false := by
      simp only [Bool.or_eq_false_iff, decide_eq_false_iff_not]
      omega
    rw [unflagged, if_pos (mirrored.mpr sampled)]
    have same : (wrapCoords coord .mirrorClampToBorder size).coords = mirror coord := by
      rw [wrapCoords, wrapMirrorClamp, wrapMirrorRepeat_mirror positive coord sampled.1 sampled.2]
    rw [same]
    have low := mirror_nonneg coord
    have high := mirrored.mpr sampled
    simp only [Bool.false_eq_true, false_and, false_or, true_and, and_true]
    omega
  · rw [if_neg (mirrored.not.mpr sampled)]
    simp only [Bool.or_eq_true, decide_eq_true_eq, and_true, reduceCtorEq, and_false, or_false]
    omega

end Modes

/-- Every mode is followed, but for the mirrored border past the right edge, where the
coordinates up to the double size repeat the texture instead of giving the border. -/
theorem wrapCoords_agrees_iff (wrap : TexWrap) {size : Int} (positive : 1 ≤ size) (coord : Int) :
    Agrees wrap size coord (wrapCoords coord wrap size) ↔ ¬PastMirror wrap size coord := by
  have others (different : wrap ≠ .mirrorClampToBorder) : ¬PastMirror wrap size coord :=
    fun past => different past.1
  cases wrap with
  | wrapRepeat => exact iff_of_true (wrapRepeat_agrees positive coord) (others nofun)
  | clamp => exact iff_of_true (clampToBorder_agrees size coord (.inl rfl)) (others nofun)
  | clampToEdge => exact iff_of_true (clampToEdge_agrees positive coord) (others nofun)
  | clampToBorder =>
      exact iff_of_true (clampToBorder_agrees size coord (.inr rfl)) (others nofun)
  | mirrorRepeat => exact iff_of_true (mirrorRepeat_agrees positive coord) (others nofun)
  | mirrorClamp =>
      exact iff_of_true (mirrorClampToEdge_agrees positive coord (.inl rfl)) (others nofun)
  | mirrorClampToEdge =>
      exact iff_of_true (mirrorClampToEdge_agrees positive coord (.inr rfl)) (others nofun)
  | mirrorClampToBorder =>
      rw [mirrorClampToBorder_agrees_iff positive]
      simp [PastMirror]

theorem wrapCoords_agrees_iff_fourTexels :
    Agrees .mirrorClampToBorder 4 (-3)
      (wrapCoords (-3) .mirrorClampToBorder 4) ↔ ¬PastMirror .mirrorClampToBorder 4 (-3) :=
  wrapCoords_agrees_iff .mirrorClampToBorder (by decide) (-3)

/-- Five texels to the right of the first one, a texture of four is sampled a third time. -/
theorem wrapCoords_not_agrees :
    ¬∀ (wrap : TexWrap) (size coord : Int), 1 ≤ size →
      Agrees wrap size coord (wrapCoords coord wrap size) := by
  intro all
  have agrees := all .mirrorClampToBorder 4 5 (by decide)
  have wrapped : wrapCoords 5 .mirrorClampToBorder 4 = ⟨2, false⟩ := by decide
  rw [Agrees, wrapped] at agrees
  revert agrees
  decide

/-! ## Fetches -/

/-- A fetch is the border color if some axis wants it, and else it is at the texels of the
axes, in the clamped layer. -/
def fetchTexels (axes : List (Int × TexWrap × Int)) (layer : Option (Int × Int)) :
    Option (List Int) :=
  (axes.mapM fun axis : Int × TexWrap × Int => axis.2.1.texel axis.2.2 axis.1).map
    (· ++ (layer.map fun layer => max 0 (min layer.1 (layer.2 - 1))).toList)

theorem Agrees.texel_eq {wrap : TexWrap} {size coord : Int} {result : WrapResult}
    (agrees : Agrees wrap size coord result) :
    wrap.texel size coord = if result.useBorderColor then none else some result.coords := by
  rcases agrees with ⟨flag, texel⟩ | ⟨flag, _, _, texel⟩
  · rw [texel, flag, if_pos rfl]
  · rw [texel, flag, if_neg nofun]

theorem mapM_ite {α β : Type} {f : α → Option β} {stops : α → Bool} {image : α → β}
    {list : List α} (each : ∀ a ∈ list, f a = if stops a then none else some (image a)) :
    list.mapM f = if list.any stops then none else some (list.map image) := by
  induction list with
  | nil => rfl
  | cons a list inductionHypothesis =>
      rw [List.mapM_cons, inductionHypothesis fun a member => each a (by simp [member]),
        each a (by simp), List.any_cons]
      cases stops a with
      | true => rfl
      | false => cases list.any stops <;> rfl

theorem fetchCoords_eq {axes : List (Int × TexWrap × Int)} {layer : Option (Int × Int)}
    (positive : ∀ axis ∈ axes, 1 ≤ axis.2.2)
    (inside : ∀ axis ∈ axes, ¬PastMirror axis.2.1 axis.2.2 axis.1)
    (layers : ∀ layer' ∈ layer, 1 ≤ layer'.2) :
    fetchCoords false axes layer = fetchTexels axes layer := by
  have texels : (axes.mapM fun axis : Int × TexWrap × Int => axis.2.1.texel axis.2.2 axis.1) =
      if axes.any fun axis : Int × TexWrap × Int =>
        (wrapCoords axis.1 axis.2.1 axis.2.2).useBorderColor then none
      else some (axes.map fun axis => (wrapCoords axis.1 axis.2.1 axis.2.2).coords) := by
    apply mapM_ite
    intro axis member
    apply Agrees.texel_eq
    exact (wrapCoords_agrees_iff _ (positive axis member) _).mpr (inside axis member)
  have clamped : layer.map (fun layer => (wrapCoords layer.1 .clampToEdge layer.2).coords) =
      layer.map fun layer => max 0 (min layer.1 (layer.2 - 1)) := by
    cases layer with
    | none => rfl
    | some layer =>
        have texel := (clampToEdge_agrees (layers layer rfl) layer.1).texel_eq
        have unflagged : (wrapCoords layer.1 .clampToEdge layer.2).useBorderColor = false := rfl
        rw [unflagged, if_neg nofun] at texel
        exact texel.symm
  rw [fetchTexels, texels, fetchCoords, if_neg nofun]
  simp only [List.any_map, List.map_map, Function.comp_def, clamped]
  split <;> rfl

end SpirvToDxil.Nir.LowerIntSamplers
