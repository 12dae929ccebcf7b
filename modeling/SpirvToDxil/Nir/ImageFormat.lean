import SpirvToDxil.Nir.Variable

/-!
# Guessing the formats of images

A format is guessed for image variables that are declared without one.
-/

namespace SpirvToDxil

namespace ImageFormat

/-- The `glsl_base_type` that is sampled. -/
inductive SampledType where
  | int
  | int64
  | int16
  | uint
  | uint64
  | uint16
  | float
  | float16
  | double
  | other
  deriving DecidableEq, Repr

/-- `PIPE_FORMAT_*` -/
inductive Format where
  | none
  | r32Sint
  | r32g32Sint
  | r32g32b32Sint
  | r32g32b32a32Sint
  | r32Uint
  | r32g32Uint
  | r32g32b32Uint
  | r32g32b32a32Uint
  | r32Float
  | r32g32Float
  | r32g32b32Float
  | r32g32b32a32Float
  | declared (code : Nat)
  deriving DecidableEq, Repr

/-- `get_format_for_var`, with `none` where a point is reached that is `UNREACHABLE`. -/
def getFormatForVar (numComps : Nat) (sampledType : SampledType) : Option Format :=
  match sampledType with
  | .int | .int64 | .int16 =>
    match numComps with
    | 1 => some .r32Sint
    | 2 => some .r32g32Sint
    | 3 => some .r32g32b32Sint
    | 4 => some .r32g32b32a32Sint
    | _ => none
  | .uint | .uint64 | .uint16 =>
    match numComps with
    | 1 => some .r32Uint
    | 2 => some .r32g32Uint
    | 3 => some .r32g32b32Uint
    | 4 => some .r32g32b32a32Uint
    | _ => none
  | .float | .float16 | .double =>
    match numComps with
    | 1 => some .r32Float
    | 2 => some .r32g32Float
    | 3 => some .r32g32b32Float
    | 4 => some .r32g32b32a32Float
    | _ => none
  | .other => none

structure ImageVariable extends Variable where
  sampledType : SampledType
  format : Format
  deriving DecidableEq, Repr

def isImage (type : GlslType) : Bool := type matches .handle .image _

def aoaSize (type : GlslType) : Nat := if type.isArray then type.getAoaSize else 1

inductive Op where
  | load
  | store
  | atomic
  | atomicSwap
  deriving DecidableEq, Repr

/-- The instructions of a shader: variables are told apart by their numbers. -/
inductive Instr where
  | imageDeref (op : Op) (var : Option Nat) (numComponents : Nat)
  | image (op : Op) (binding : UInt32) (numComponents : Nat)
  | other
  deriving DecidableEq, Repr

namespace Instr

def isAtomic : Instr → Bool
  | imageDeref op _ _ | image op _ _ => op = .atomic ∨ op = .atomicSwap
  | other => false

def numComponents : Instr → Nat
  | imageDeref _ _ numComponents | image _ _ numComponents => numComponents
  | other => 0

/-- Whether the first `switch` goes on with the instruction. -/
def accesses (id : Nat) (var : ImageVariable) : Instr → Bool
  | imageDeref _ accessed _ => accessed = some id
  | image _ binding _ =>
    ¬ (binding < var.binding ∨
      GlslType.unsigned (var.binding.toNat + aoaSize var.type) ≤ binding.toNat)
  | other => false

end Instr

abbrev Shader := List (List (List Instr))

/-- The instructions of a block. The `break` after the first `switch` leaves the loop over them, so
that the second one, on the kind of the access, is not reached. -/
def guessInBlock (id : Nat) (var : ImageVariable) : List Instr → ImageVariable
  | [] => var
  | instr :: rest => if instr.accesses id var then var else guessInBlock id var rest

def guessInFunction (id : Nat) (var : ImageVariable) (blocks : List (List Instr)) :
    ImageVariable :=
  blocks.foldl (guessInBlock id) var

/-- `guess_image_format_for_var`: whether there is progress, and the variable. -/
def guessImageFormatForVar (shader : Shader) (id : Nat) (var : ImageVariable) :
    Option (Bool × ImageVariable) :=
  if isImage var.type.withoutArray = false then some (false, var)
  else if var.format ≠ .none then some (false, var)
  else
    let guessed := shader.foldl (guessInFunction id) var
    if guessed.format = .none then do
      -- dunno what it is, assume four components
      let format ← getFormatForVar 4 var.sampledType
      some (true, { guessed with format })
    else some (true, guessed)

section Guess

variable (id : Nat) (var : ImageVariable)

/-- No access ever changes the variable. -/
theorem guessInBlock_eq (block : List Instr) : guessInBlock id var block = var := by
  induction block with
  | nil => rfl
  | cons instr rest inductionHypothesis =>
      rw [guessInBlock]
      split
      next => rfl
      next => exact inductionHypothesis

theorem guessInFunction_eq (blocks : List (List Instr)) : guessInFunction id var blocks = var := by
  induction blocks with
  | nil => rfl
  | cons block blocks inductionHypothesis =>
      rw [guessInFunction, List.foldl_cons, guessInBlock_eq]
      exact inductionHypothesis

theorem foldl_guessInFunction (shader : Shader) :
    shader.foldl (guessInFunction id) var = var := by
  induction shader with
  | nil => rfl
  | cons blocks shader inductionHypothesis =>
      rw [List.foldl_cons, guessInFunction_eq]
      exact inductionHypothesis

variable {id var}

theorem guessImageFormatForVar_eq (shader : Shader) (image : isImage var.type.withoutArray)
    (undeclared : var.format = .none) :
    guessImageFormatForVar shader id var =
      (getFormatForVar 4 var.sampledType).map fun format => (true, { var with format }) := by
  rw [guessImageFormatForVar, if_neg (by simp [image]), if_neg (not_not.mpr undeclared)]
  simp only [foldl_guessInFunction, undeclared, if_true]
  cases getFormatForVar 4 var.sampledType <;> rfl

end Guess

section Uses

def uses (shader : Shader) (id : Nat) (var : ImageVariable) : List Instr :=
  shader.flatten.flatten.filter (·.accesses id var)

/-- One component for atomics, or else those of the widest access. -/
def usedComponents (accesses : List Instr) : Nat :=
  if accesses.any Instr.isAtomic then 1
  else if accesses.isEmpty then 4
  else (accesses.map Instr.numComponents).foldr max 0

def FollowsUses (shader : Shader) (id : Nat) (var : ImageVariable) : Prop :=
  ∃ guessed format, guessImageFormatForVar shader id var = some (true, guessed) ∧
    getFormatForVar (usedComponents (uses shader id var)) var.sampledType = some format ∧
    guessed.format = format

/-- The uses of an image are the same in any order of functions, blocks and instructions. -/
theorem usedComponents_perm {first second : List Instr} (perm : first.Perm second) :
    usedComponents first = usedComponents second := by
  have any : first.any Instr.isAtomic = second.any Instr.isAtomic := perm.any_eq
  have isEmpty : first.isEmpty = second.isEmpty := perm.isEmpty_eq
  have widest : (first.map Instr.numComponents).foldr max 0 =
      (second.map Instr.numComponents).foldr max 0 :=
    (perm.map _).foldr_eq' (fun _ _ _ _ _ => by omega) 0
  rw [usedComponents, usedComponents, any, isEmpty, widest]

theorem getFormatForVar_four {numComps : Nat} {sampledType : SampledType} {format : Format}
    (four : getFormatForVar 4 sampledType = some format) :
    getFormatForVar numComps sampledType = some format ↔ numComps = 4 := by
  constructor
  · intro same
    match numComps with
    | 4 => rfl
    | 0 | 1 | 2 | 3 | _ + 5 => cases sampledType <;> cases four <;> cases same
  · rintro rfl
    exact four

theorem le_widest {accesses : List Instr} {access : Instr} (present : access ∈ accesses) :
    access.numComponents ≤ (accesses.map Instr.numComponents).foldr max 0 := by
  induction accesses with
  | nil => cases present
  | cons head rest inductionHypothesis =>
      rw [List.map_cons, List.foldr_cons]
      rcases List.mem_cons.mp present with rfl | later
      · exact Nat.le_max_left _ _
      · exact Nat.le_trans (inductionHypothesis later) (Nat.le_max_right _ _)

theorem exists_widest {accesses : List Instr} (used : accesses ≠ []) :
    ∃ access ∈ accesses,
      access.numComponents = (accesses.map Instr.numComponents).foldr max 0 := by
  induction accesses with
  | nil => exact absurd rfl used
  | cons head rest inductionHypothesis =>
      rw [List.map_cons, List.foldr_cons]
      by_cases last : rest = []
      · exact ⟨head, List.mem_cons_self, by simp [last]⟩
      · obtain ⟨access, present, widest⟩ := inductionHypothesis last
        rcases Nat.le_total head.numComponents access.numComponents with less | more
        · exact ⟨access, List.mem_cons_of_mem _ present, by omega⟩
        · exact ⟨head, List.mem_cons_self, by omega⟩

theorem usedComponents_eq_four {accesses : List Instr} :
    usedComponents accesses = 4 ↔
      (∀ access ∈ accesses, access.isAtomic = false) ∧
        (accesses = [] ∨ (∀ access ∈ accesses, access.numComponents ≤ 4) ∧
          ∃ access ∈ accesses, access.numComponents = 4) := by
  rw [usedComponents]
  by_cases atomic : accesses.any Instr.isAtomic
  · obtain ⟨access, present, isAtomic⟩ := List.any_eq_true.mp atomic
    rw [if_pos atomic]
    constructor
    · intro one
      cases one
    · rintro ⟨noAtomics, -⟩
      rw [noAtomics access present] at isAtomic
      cases isAtomic
  · have noAtomics : ∀ access ∈ accesses, access.isAtomic = false := by simpa using atomic
    rw [if_neg atomic]
    refine Iff.trans ?_ (and_iff_right noAtomics).symm
    by_cases unused : accesses = []
    · simp [unused]
    · obtain ⟨access, present, widest⟩ := exists_widest unused
      rw [if_neg (by simpa using unused), or_iff_right unused]
      constructor
      · intro four
        exact ⟨fun narrow isNarrow => four ▸ le_widest isNarrow, access, present,
          widest.trans four⟩
      · rintro ⟨below, wide, isWide, four⟩
        apply Nat.le_antisymm
        · exact widest ▸ below access present
        · exact four ▸ le_widest isWide

/-- The guess is the same for every shader. It is right for the images that have no atomics, and of
which the widest access, if there is one, has four components. -/
theorem followsUses_iff (shader : Shader) (id : Nat) (var : ImageVariable)
    (image : isImage var.type.withoutArray) (undeclared : var.format = .none) :
    (∀ other : Shader,
        guessImageFormatForVar other id var = guessImageFormatForVar shader id var) ∧
      (FollowsUses shader id var ↔
        var.sampledType ≠ .other ∧ (∀ access ∈ uses shader id var, access.isAtomic = false) ∧
          (uses shader id var = [] ∨
            (∀ access ∈ uses shader id var, access.numComponents ≤ 4) ∧
              ∃ access ∈ uses shader id var, access.numComponents = 4)) := by
  constructor
  · intro other
    rw [guessImageFormatForVar_eq other image undeclared,
      guessImageFormatForVar_eq shader image undeclared]
  rw [← usedComponents_eq_four, FollowsUses, guessImageFormatForVar_eq shader image undeclared]
  cases four : getFormatForVar 4 var.sampledType with
  | none =>
      have isOther : var.sampledType = .other := by
        cases sampled : var.sampledType <;> rw [sampled] at four <;> cases four
      simp [isOther]
  | some format =>
      have numeric : var.sampledType ≠ .other := by
        intro isOther
        rw [isOther] at four
        cases four
      rw [and_iff_right numeric, ← getFormatForVar_four four]
      constructor
      · rintro ⟨guessed, wanted, isGuessed, isWanted, rfl⟩
        cases isGuessed
        exact isWanted
      · exact fun wanted => ⟨_, format, rfl, wanted, rfl⟩

/-- An image of unsigned integers at binding zero, which one atomic accesses. -/
def counterImage : ImageVariable where
  type := .handle .image true
  mode := .image
  access := 0
  descriptorSet := 0
  binding := 0
  sampledType := .uint
  format := .none

theorem followsUses_iff_counterImage :
    (∀ other : Shader, guessImageFormatForVar other 0 counterImage =
        guessImageFormatForVar [[[.imageDeref .load (some 0) 4]]] 0 counterImage) ∧
      (FollowsUses [[[.imageDeref .load (some 0) 4]]] 0 counterImage ↔
        counterImage.sampledType ≠ .other ∧
          (∀ access ∈ uses [[[.imageDeref .load (some 0) 4]]] 0 counterImage,
            access.isAtomic = false) ∧
          (uses [[[.imageDeref .load (some 0) 4]]] 0 counterImage = [] ∨
            (∀ access ∈ uses [[[.imageDeref .load (some 0) 4]]] 0 counterImage,
              access.numComponents ≤ 4) ∧
              ∃ access ∈ uses [[[.imageDeref .load (some 0) 4]]] 0 counterImage,
                access.numComponents = 4)) :=
  followsUses_iff _ 0 counterImage rfl rfl

/-- The format of an image with an atomic should have one component, but has four. -/
theorem not_followsUses_atomic :
    guessImageFormatForVar [[[.imageDeref .atomic (some 0) 1]]] 0 counterImage =
        some (true, { counterImage with format := .r32g32b32a32Uint }) ∧
      ¬ FollowsUses [[[.imageDeref .atomic (some 0) 1]]] 0 counterImage := by
  refine ⟨rfl, ?_⟩
  rintro ⟨guessed, format, ⟨⟩, ⟨⟩, same⟩
  cases same

end Uses

end ImageFormat

end SpirvToDxil
