import SpirvToDxil.Nir.GlslType

/-!
# Resource variables
-/

namespace SpirvToDxil

/-- The modes that the passes over resources tell apart. -/
inductive VariableMode where
  | uniform
  | image
  | memUbo
  | memSsbo
  | other
  deriving DecidableEq, Repr

/-- `ACCESS_NON_WRITEABLE` of `gl_access_qualifier`. -/
def ACCESS_NON_WRITEABLE : BitVec 9 := 1 <<< 4

/-- A `nir_variable`, with the members of `data` that are about resources. -/
structure Variable where
  type : GlslType
  mode : VariableMode
  access : BitVec 9
  descriptorSet : UInt32
  binding : UInt32
  deriving DecidableEq, Repr

def Variable.nonWriteable (var : Variable) : Bool :=
  var.access &&& ACCESS_NON_WRITEABLE != 0

theorem Variable.nonWriteable_eq_getLsbD (var : Variable) :
    var.nonWriteable = var.access.getLsbD 4 := by
  have masked : var.access &&& ACCESS_NON_WRITEABLE =
      if var.access.getLsbD 4 then ACCESS_NON_WRITEABLE else 0 := by
    apply BitVec.eq_of_getLsbD_eq
    intro i small
    rw [BitVec.getLsbD_and]
    by_cases bit : i = 4
    · subst bit
      cases var.access.getLsbD 4 <;> decide
    · have clear : ACCESS_NON_WRITEABLE.getLsbD i = false := by
        revert bit
        revert i
        decide
      cases var.access.getLsbD 4 <;> simp [clear]
  rw [Variable.nonWriteable, masked]
  cases var.access.getLsbD 4 <;> decide

end SpirvToDxil
