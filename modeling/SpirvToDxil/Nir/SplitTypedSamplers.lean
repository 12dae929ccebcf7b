import Mathlib.Algebra.Order.Ring.Nat
import SpirvToDxil.Util.KeyedIntern

/-!
# Splitting typed samplers

`dxil_nir_split_typed_samplers`. Two passes over the texture instructions give every combined
variable a bare sampler and a texture next to it. Both find the new variable under the
descriptor set and binding of the old one.
-/

namespace SpirvToDxil

open KeyedIntern

/-! ## Types of samplers and textures -/

inductive SamplerDim where
  | dim1d
  | dim2d
  | dim3d
  | cube
  | rect
  | buf
  | external
  | ms
  | subpass
  | subpassMs
  deriving DecidableEq

inductive SampledType where
  | float
  | int
  | uint
  deriving DecidableEq

/-- The types of variables that textures and samplers come from; a sampler without a sampled
type is a bare one. -/
inductive UniformType where
  | sampler (dim : SamplerDim) (shadow isArray : Bool) (sampledType : Option SampledType)
  | texture (dim : SamplerDim) (isArray : Bool) (sampledType : Option SampledType)
  | image (dim : SamplerDim) (isArray : Bool) (sampledType : Option SampledType)
  | array (element : UniformType) (length explicitStride : Nat)
  | error
  deriving DecidableEq

namespace UniformType

def withoutArray : UniformType → UniformType
  | array element _ _ => element.withoutArray
  | type => type

def wrapInArrays (type : UniformType) : UniformType → UniformType
  | array element length explicitStride => array (wrapInArrays type element) length explicitStride
  | _ => type

def isBareSampler (type : UniformType) : Bool := type matches sampler _ _ _ none

def samplerTypeIsShadow (type : UniformType) : Bool := type matches sampler _ true _ _

def isTexture (type : UniformType) : Bool := type matches texture ..

def isImage (type : UniformType) : Bool := type matches image ..

def getSamplerCount : UniformType → Nat
  | array element length _ => length * element.getSamplerCount % 2 ^ 32
  | sampler .. => 1
  | _ => 0

def getTextureCount : UniformType → Nat
  | array element length _ => length * element.getTextureCount % 2 ^ 32
  | texture .. => 1
  | _ => 0

/-- `glsl_texture_type`. -/
def ofTexture (dim : SamplerDim) (isArray : Bool) (sampledType : Option SampledType) :
    UniformType :=
  match dim with
  | .dim3d =>
    if isArray ∧ sampledType ≠ some .float then error else texture .dim3d false sampledType
  | .cube => if sampledType = none then error else texture .cube isArray sampledType
  | .rect => if isArray ∨ sampledType = none then error else texture .rect false sampledType
  | .buf => if isArray then error else texture .buf false sampledType
  | .external =>
    if isArray ∨ sampledType ≠ some .float then error else texture .external false sampledType
  | .subpass | .subpassMs => if sampledType = none then error else texture dim false sampledType
  | .dim1d | .dim2d | .ms => texture dim isArray sampledType

def samplerTypeToTexture : UniformType → UniformType
  | sampler dim _ isArray sampledType => ofTexture dim isArray sampledType
  | _ => error

/-- `glsl_bare_shadow_sampler_type` and `glsl_bare_sampler_type`. -/
def bareSampler (isShadow : Bool) : UniformType := sampler .dim1d isShadow false none

def getBareSamplersForType (type : UniformType) (isShadow : Bool) : UniformType :=
  wrapInArrays (bareSampler isShadow) type

def getTexturesForSamplerType (type : UniformType) : UniformType :=
  wrapInArrays type.withoutArray.samplerTypeToTexture type

end UniformType

/-! ## The passes -/

/-- The uniform variables; clones keep everything but the type. -/
structure SamplerVar where
  type : UniformType
  descriptorSet : BitVec 32
  binding : BitVec 32
  name : String
  deriving DecidableEq

/-- A variable, and the operands that index its arrays. -/
structure DerefPath where
  var : Nat
  indices : List Nat
  deriving DecidableEq

structure TexInstr where
  isShadow : Bool
  /-- `nir_tex_instr_need_sampler`. -/
  needSampler : Bool
  samplerIndex : BitVec 32
  textureIndex : BitVec 32
  samplerDeref : Option DerefPath
  textureDeref : Option DerefPath
  deriving DecidableEq

def SamplerVar.key (var : SamplerVar) : BitVec 64 :=
  var.descriptorSet.setWidth 64 <<< 32 ||| var.binding.setWidth 64

/-- The variables of the shader, and the hash table of the pass. -/
abbrev SamplerPool := Pool (BitVec 64) SamplerVar

/-- The last of the variables that satisfy a test, or the first that satisfies `stops`. -/
def searchVariables (covers stops : SamplerVar → Bool) (vars : List SamplerVar) :
    Option (Nat × SamplerVar) × Option (Nat × SamplerVar) :=
  let indexed := vars.zipIdx.map fun (var, index) => (index, var)
  (indexed.find? fun entry => stops entry.2, (indexed.filter fun entry => covers entry.2).getLast?)

/-- `redirect_sampler_derefs`; a missing variable is undefined. -/
def redirectSamplerDerefs (pool : SamplerPool) (tex : TexInstr) :
    Option (SamplerPool × TexInstr) :=
  match tex.samplerDeref with
  | none =>
    if !tex.needSampler then some (pool, tex)
    else
      let key := tex.samplerIndex.setWidth 64
      match pool.search key with
      | some _ => some (pool, tex)
      | none =>
        let covers var := var.binding ≤ tex.samplerIndex ∧
          tex.samplerIndex.toNat < (var.binding.toNat + var.type.getSamplerCount) % 2 ^ 32
        let stops var := covers var ∧ var.type.withoutArray.isBareSampler ∧
          var.type.withoutArray.samplerTypeIsShadow = tex.isShadow
        match searchVariables (covers ·) (stops ·) pool.entries with
        | (some (index, _), _) => some (pool.insert key index, tex)
        | (none, some (_, oldSampler)) =>
          let (index, pool) := pool.add
            { oldSampler with type := oldSampler.type.getBareSamplersForType tex.isShadow }
          some (pool.insert key index, tex)
        | (none, none) => none
  | some path => do
    let oldVar ← pool.entries[path.var]?
    if oldVar.type.withoutArray.isBareSampler ∧
        oldVar.type.withoutArray.samplerTypeIsShadow = tex.isShadow then some (pool, tex)
    else
      let (newVar, pool) := pool.request oldVar.key
        { oldVar with type := oldVar.type.getBareSamplersForType tex.isShadow }
      some (pool, { tex with samplerDeref := some { path with var := newVar } })

def redirectTextureDerefs (pool : SamplerPool) (tex : TexInstr) :
    Option (SamplerPool × TexInstr) :=
  match tex.textureDeref with
  | none =>
    let key := tex.textureIndex.setWidth 64
    match pool.search key with
    | some _ => some (pool, tex)
    | none =>
      let stops var := var.binding ≤ tex.textureIndex ∧
        tex.textureIndex.toNat < (var.binding.toNat + var.type.getTextureCount) % 2 ^ 32
      let covers var := var.binding ≤ tex.textureIndex ∧
        tex.textureIndex.toNat < (var.binding.toNat + var.type.getSamplerCount) % 2 ^ 32 ∧
        !var.type.withoutArray.isBareSampler
      match searchVariables (covers ·) (stops ·) pool.entries with
      | (some (index, _), _) => some (pool.insert key index, tex)
      | (none, some (_, typedSampler)) =>
        let (index, pool) := pool.add
          { typedSampler with type := typedSampler.type.getTexturesForSamplerType }
        some (pool.insert key index, tex)
      | (none, none) => none
  | some path => do
    let oldVar ← pool.entries[path.var]?
    if oldVar.type.withoutArray.isTexture ∨ oldVar.type.withoutArray.isImage then some (pool, tex)
    else
      let (newVar, pool) := pool.request oldVar.key
        { oldVar with type := oldVar.type.getTexturesForSamplerType }
      some (pool, { tex with textureDeref := some { path with var := newVar } })

def runPass (redirect : SamplerPool → TexInstr → Option (SamplerPool × TexInstr)) :
    SamplerPool → List TexInstr → Option (SamplerPool × List TexInstr)
  | pool, [] => some (pool, [])
  | pool, tex :: instrs => do
    let (pool, tex) ← redirect pool tex
    let (pool, instrs) ← runPass redirect pool instrs
    some (pool, tex :: instrs)

/-- `dxil_nir_split_typed_samplers`: the variables and the instructions after both passes, the
second of which starts with an empty table. -/
def splitTypedSamplers (vars : List SamplerVar) (instrs : List TexInstr) :
    Option (List SamplerVar × List TexInstr) := do
  let (pool, instrs) ← runPass redirectSamplerDerefs ⟨vars, []⟩ instrs
  let (pool, instrs) ← runPass redirectTextureDerefs ⟨pool.entries, []⟩ instrs
  some (pool.entries, instrs)

/-! ## Requests of instructions with derefs -/

namespace UniformType

theorem withoutArray_wrapInArrays {type : UniformType} (single : type.withoutArray = type)
    (arrays : UniformType) : (wrapInArrays type arrays).withoutArray = type := by
  induction arrays with
  | array element _ _ inductionHypothesis => exact inductionHypothesis
  | _ => exact single

theorem withoutArray_ofTexture (dim : SamplerDim) (isArray : Bool)
    (sampledType : Option SampledType) :
    (ofTexture dim isArray sampledType).withoutArray = ofTexture dim isArray sampledType := by
  cases dim <;> simp only [ofTexture] <;> (try split) <;> rfl

theorem withoutArray_samplerTypeToTexture (type : UniformType) :
    type.samplerTypeToTexture.withoutArray = type.samplerTypeToTexture := by
  cases type with
  | sampler dim shadow isArray sampledType => exact withoutArray_ofTexture dim isArray sampledType
  | _ => rfl

end UniformType

/-- The descriptor set and the binding are what the key consists of. -/
theorem SamplerVar.key_inj {var other : SamplerVar} :
    var.key = other.key ↔ var.descriptorSet = other.descriptorSet ∧
    var.binding = other.binding := by
  constructor
  · intro same
    constructor
    · apply BitVec.eq_of_getLsbD_eq
      intro i inside
      have bit := congrArg (fun bits : BitVec 64 => bits.getLsbD (i + 32)) same
      simpa [key, show i + 32 < 64 by omega, show ¬i + 32 < 32 by omega, inside] using bit
    · apply BitVec.eq_of_getLsbD_eq
      intro i inside
      have bit := congrArg (fun bits : BitVec 64 => bits.getLsbD i) same
      simpa [key, show i < 64 by omega, inside] using bit
  · rintro ⟨set, binding⟩
    rw [key, key, set, binding]

section Requests

variable (vars : List SamplerVar)

def SamplerVar.HasSampler (var : SamplerVar) (isShadow : Bool) : Prop :=
  var.type.withoutArray.isBareSampler = true ∧
    var.type.withoutArray.samplerTypeIsShadow = isShadow

instance (var : SamplerVar) (isShadow : Bool) : Decidable (var.HasSampler isShadow) :=
  inferInstanceAs (Decidable (_ ∧ _))

def SamplerVar.HasTexture (var : SamplerVar) : Prop :=
  var.type.withoutArray.isTexture = true ∨ var.type.withoutArray.isImage = true

instance (var : SamplerVar) : Decidable var.HasTexture := inferInstanceAs (Decidable (_ ∨ _))

def SamplerVar.withSampler (var : SamplerVar) (isShadow : Bool) : SamplerVar :=
  { var with type := var.type.getBareSamplersForType isShadow }

def SamplerVar.withTexture (var : SamplerVar) : SamplerVar :=
  { var with type := var.type.getTexturesForSamplerType }

def TexInstr.samplerRequest (tex : TexInstr) : Option (BitVec 64 × SamplerVar) :=
  tex.samplerDeref.bind fun path => vars[path.var]?.bind fun var =>
    if var.HasSampler tex.isShadow then none else some (var.key, var.withSampler tex.isShadow)

def TexInstr.textureRequest (tex : TexInstr) : Option (BitVec 64 × SamplerVar) :=
  tex.textureDeref.bind fun path => vars[path.var]?.bind fun var =>
    if var.HasTexture then none else some (var.key, var.withTexture)

def TexInstr.putSampler (tex : TexInstr) (index : Nat) : TexInstr :=
  { tex with samplerDeref := tex.samplerDeref.map fun path => { path with var := index } }

def TexInstr.putTexture (tex : TexInstr) (index : Nat) : TexInstr :=
  { tex with textureDeref := tex.textureDeref.map fun path => { path with var := index } }

/-- The instruction names its texture, and its sampler if it needs one, by derefs of variables
of the shader. -/
def TexInstr.UsesDerefs (tex : TexInstr) : Prop :=
  (tex.samplerDeref = none → tex.needSampler = false) ∧
    (∀ path, tex.samplerDeref = some path → path.var < vars.length) ∧
    ∃ path, tex.textureDeref = some path ∧ path.var < vars.length

variable {vars} {pool : SamplerPool} {tex : TexInstr}

theorem exists_var (grown : vars <+: pool.entries) {path : DerefPath}
    (inside : path.var < vars.length) :
    ∃ var, vars[path.var]? = some var ∧ pool.entries[path.var]? = some var := by
  obtain ⟨rest, same⟩ := grown
  refine ⟨_, List.getElem?_eq_getElem inside, ?_⟩
  rw [← same, List.getElem?_append_left inside, List.getElem?_eq_getElem inside]

theorem redirectSamplerDerefs_eq (grown : vars <+: pool.entries) (uses : tex.UsesDerefs vars) :
    redirectSamplerDerefs pool tex =
      some (serve (TexInstr.samplerRequest vars) TexInstr.putSampler pool tex) := by
  obtain ⟨needs, inside, -⟩ := uses
  rw [redirectSamplerDerefs]
  cases deref : tex.samplerDeref with
  | none => simp [serve, TexInstr.samplerRequest, deref, needs deref]
  | some path =>
      obtain ⟨var, here, there⟩ := exists_var grown (inside path deref)
      simp only [there, Option.bind_eq_bind, Option.bind_some]
      by_cases has : var.HasSampler tex.isShadow
      · apply (if_pos has).trans
        simp [serve, TexInstr.samplerRequest, deref, here, has]
      · apply (if_neg has).trans
        simp [serve, TexInstr.samplerRequest, TexInstr.putSampler, deref, here, has,
          SamplerVar.withSampler]

theorem redirectTextureDerefs_eq (grown : vars <+: pool.entries)
    (uses : ∃ path, tex.textureDeref = some path ∧ path.var < vars.length) :
    redirectTextureDerefs pool tex =
      some (serve (TexInstr.textureRequest vars) TexInstr.putTexture pool tex) := by
  obtain ⟨path, deref, inside⟩ := uses
  obtain ⟨var, here, there⟩ := exists_var grown inside
  rw [redirectTextureDerefs]
  simp only [deref, there, Option.bind_eq_bind, Option.bind_some]
  by_cases has : var.HasTexture
  · apply (if_pos has).trans
    simp [serve, TexInstr.textureRequest, deref, here, has]
  · apply (if_neg has).trans
    simp [serve, TexInstr.textureRequest, TexInstr.putTexture, deref, here, has,
      SamplerVar.withTexture]

/-- A pass whose steps serve requests is a run of requests. -/
theorem runPass_eq {redirect : SamplerPool → TexInstr → Option (SamplerPool × TexInstr)}
    {requestOf : TexInstr → Option (BitVec 64 × SamplerVar)} {put : TexInstr → Nat → TexInstr}
    {requests : List (BitVec 64 × SamplerVar)} (served : Served vars requests pool)
    (instrs : List TexInstr)
    (steps : ∀ pool : SamplerPool, vars <+: pool.entries → ∀ tex ∈ instrs,
      redirect pool tex = some (serve requestOf put pool tex)) :
    runPass redirect pool instrs = some (serveAll requestOf put pool instrs) := by
  induction instrs generalizing requests pool with
  | nil => rfl
  | cons tex instrs inductionHypothesis =>
      obtain ⟨after, -⟩ := @Served.serve _ _ _ _ _ _ _ requestOf put served tex
      have rest := inductionHypothesis after
        fun pool grown tex member => steps pool grown tex (List.mem_cons_of_mem _ member)
      rw [runPass, steps pool served.grown tex List.mem_cons_self]
      simp only [Option.bind_eq_bind, Option.bind_some, rest]
      rfl

variable (vars)

def TexInstr.RedirectsSampler (tex : TexInstr) (path : DerefPath) (var : SamplerVar) : Prop :=
  tex.samplerDeref = some path ∧ vars[path.var]? = some var ∧ ¬var.HasSampler tex.isShadow

def TexInstr.RedirectsTexture (tex : TexInstr) (path : DerefPath) (var : SamplerVar) : Prop :=
  tex.textureDeref = some path ∧ vars[path.var]? = some var ∧ ¬var.HasTexture

variable {vars}

theorem TexInstr.RedirectsSampler.unique {path path' : DerefPath} {var var' : SamplerVar}
    (redirects : tex.RedirectsSampler vars path var)
    (redirects' : tex.RedirectsSampler vars path' var') : path' = path ∧ var' = var := by
  obtain rfl := Option.some.inj (redirects'.1.symm.trans redirects.1)
  exact ⟨rfl, Option.some.inj (redirects'.2.1.symm.trans redirects.2.1)⟩

theorem TexInstr.RedirectsTexture.unique {path path' : DerefPath} {var var' : SamplerVar}
    (redirects : tex.RedirectsTexture vars path var)
    (redirects' : tex.RedirectsTexture vars path' var') : path' = path ∧ var' = var := by
  obtain rfl := Option.some.inj (redirects'.1.symm.trans redirects.1)
  exact ⟨rfl, Option.some.inj (redirects'.2.1.symm.trans redirects.2.1)⟩

theorem samplerRequest_eq_some_iff {request : BitVec 64 × SamplerVar} :
    tex.samplerRequest vars = some request ↔ ∃ path var, tex.RedirectsSampler vars path var ∧
      request = (var.key, var.withSampler tex.isShadow) := by
  simp only [TexInstr.samplerRequest, Option.bind_eq_some_iff, TexInstr.RedirectsSampler]
  constructor
  · rintro ⟨path, deref, var, here, redirected⟩
    split at redirected
    · cases redirected
    · next missing => exact ⟨path, var, ⟨deref, here, missing⟩, (Option.some.inj redirected).symm⟩
  · rintro ⟨path, var, ⟨deref, here, missing⟩, rfl⟩
    exact ⟨path, deref, var, here, if_neg missing⟩

theorem textureRequest_eq_some_iff {request : BitVec 64 × SamplerVar} :
    tex.textureRequest vars = some request ↔ ∃ path var, tex.RedirectsTexture vars path var ∧
      request = (var.key, var.withTexture) := by
  simp only [TexInstr.textureRequest, Option.bind_eq_some_iff, TexInstr.RedirectsTexture]
  constructor
  · rintro ⟨path, deref, var, here, redirected⟩
    split at redirected
    · cases redirected
    · next missing => exact ⟨path, var, ⟨deref, here, missing⟩, (Option.some.inj redirected).symm⟩
  · rintro ⟨path, var, ⟨deref, here, missing⟩, rfl⟩
    exact ⟨path, deref, var, here, if_neg missing⟩

variable (vars) in
/-- What the two passes leave: the positions under which new variables are found, what they
hold, and how the derefs are redirected. -/
structure SplitVars (instrs : List TexInstr) (vars' : List SamplerVar) (instrs' : List TexInstr)
    (samplers textures : BitVec 64 → Option Nat) : Prop where
  grown : vars <+: vars'
  sampler : ∀ key index, samplers key = some index → ∃ tex ∈ instrs, ∃ path var,
    tex.RedirectsSampler vars path var ∧ var.key = key ∧
      vars'[index]? = some (var.withSampler tex.isShadow)
  texture : ∀ key index, textures key = some index → ∃ tex ∈ instrs, ∃ path var,
    tex.RedirectsTexture vars path var ∧ var.key = key ∧ vars'[index]? = some var.withTexture
  samplersApart : ∀ key key' index, samplers key = some index → samplers key' = some index →
    key = key'
  texturesApart : ∀ key key' index, textures key = some index → textures key' = some index →
    key = key'
  redirected : ∀ (k : Nat) tex, instrs[k]? = some tex → ∃ tex', instrs'[k]? = some tex' ∧
    (∀ path var, tex.RedirectsSampler vars path var → ∃ index, samplers var.key = some index ∧
      tex'.samplerDeref = some { path with var := index }) ∧
    ((∀ path var, ¬tex.RedirectsSampler vars path var) → tex'.samplerDeref = tex.samplerDeref) ∧
    (∀ path var, tex.RedirectsTexture vars path var → ∃ index, textures var.key = some index ∧
      tex'.textureDeref = some { path with var := index }) ∧
    ((∀ path var, ¬tex.RedirectsTexture vars path var) → tex'.textureDeref = tex.textureDeref)

structure SamplerPass (vars : List SamplerVar) (instrs : List TexInstr) (pool : SamplerPool)
    (instrs' : List TexInstr) : Prop where
  run : runPass redirectSamplerDerefs ⟨vars, []⟩ instrs = some (pool, instrs')
  grown : vars <+: pool.entries
  sampler : ∀ key index, pool.search key = some index → ∃ tex ∈ instrs, ∃ path var,
    tex.RedirectsSampler vars path var ∧ var.key = key ∧
      pool.entries[index]? = some (var.withSampler tex.isShadow)
  apart : ∀ key key' index, pool.search key = some index → pool.search key' = some index →
    key = key'
  origin : ∀ tex' ∈ instrs', ∃ tex ∈ instrs, tex'.textureDeref = tex.textureDeref
  redirected : ∀ (k : Nat) tex, instrs[k]? = some tex → ∃ tex', instrs'[k]? = some tex' ∧
    tex'.textureDeref = tex.textureDeref ∧
    (∀ path var, tex.RedirectsSampler vars path var → ∃ index, pool.search var.key = some index ∧
      tex'.samplerDeref = some { path with var := index }) ∧
    ((∀ path var, ¬tex.RedirectsSampler vars path var) → tex'.samplerDeref = tex.samplerDeref)

theorem exists_samplerPass {instrs : List TexInstr} (uses : ∀ tex ∈ instrs, tex.UsesDerefs vars) :
    ∃ pool instrs', SamplerPass vars instrs pool instrs' := by
  obtain ⟨served, -, answered⟩ := @Served.serveAll _ _ _ _ _ _ _ (TexInstr.samplerRequest vars)
    TexInstr.putSampler (served_init vars) instrs
  refine ⟨_, _, runPass_eq (served_init vars) instrs
    fun pool grown tex member => redirectSamplerDerefs_eq grown (uses tex member), served.grown,
    ?_, served.apart, ?_, ?_⟩
  · intro key index here
    obtain ⟨value, request, entry⟩ := served.exists_request here
    rw [List.nil_append, List.mem_filterMap] at request
    obtain ⟨tex, member, isRequest⟩ := request
    obtain ⟨path, var, redirects, same⟩ := samplerRequest_eq_some_iff.mp isRequest
    obtain ⟨rfl, rfl⟩ := Prod.mk.inj same
    exact ⟨tex, member, path, var, redirects, rfl, entry⟩
  · intro tex member
    obtain ⟨old, inside, same | ⟨index, same⟩⟩ := mem_serveAll member
    · exact ⟨old, inside, congrArg TexInstr.textureDeref same⟩
    · exact ⟨old, inside, by rw [same]; rfl⟩
  · intro k tex here
    obtain ⟨unserved, isServed⟩ := answered k tex here
    cases isRequest : tex.samplerRequest vars with
    | none =>
        refine ⟨tex, unserved isRequest, rfl, ?_, fun _ => rfl⟩
        intro path var redirects
        cases isRequest.symm.trans (samplerRequest_eq_some_iff.mpr ⟨path, var, redirects, rfl⟩)
    | some request =>
        obtain ⟨index, found, put⟩ := isServed request isRequest
        obtain ⟨path, var, redirects, rfl⟩ := samplerRequest_eq_some_iff.mp isRequest
        refine ⟨_, put, rfl, ?_, fun none => absurd redirects (none path var)⟩
        intro path' var' redirects'
        obtain ⟨rfl, rfl⟩ := redirects.unique redirects'
        exact ⟨index, found, by rw [TexInstr.putSampler, redirects.1]; rfl⟩

structure TexturePass (vars : List SamplerVar) (instrs : List TexInstr) (pool : SamplerPool)
    (instrs' : List TexInstr) : Prop where
  run : runPass redirectTextureDerefs ⟨vars, []⟩ instrs = some (pool, instrs')
  grown : vars <+: pool.entries
  texture : ∀ key index, pool.search key = some index → ∃ tex ∈ instrs, ∃ path var,
    tex.RedirectsTexture vars path var ∧ var.key = key ∧
      pool.entries[index]? = some var.withTexture
  apart : ∀ key key' index, pool.search key = some index → pool.search key' = some index →
    key = key'
  redirected : ∀ (k : Nat) tex, instrs[k]? = some tex → ∃ tex', instrs'[k]? = some tex' ∧
    tex'.samplerDeref = tex.samplerDeref ∧
    (∀ path var, tex.RedirectsTexture vars path var → ∃ index, pool.search var.key = some index ∧
      tex'.textureDeref = some { path with var := index }) ∧
    ((∀ path var, ¬tex.RedirectsTexture vars path var) → tex'.textureDeref = tex.textureDeref)

theorem exists_texturePass {instrs : List TexInstr} (uses : ∀ tex ∈ instrs, ∃ path,
      tex.textureDeref = some path ∧ path.var < vars.length) :
    ∃ pool instrs', TexturePass vars instrs pool instrs' := by
  obtain ⟨served, -, answered⟩ := @Served.serveAll _ _ _ _ _ _ _ (TexInstr.textureRequest vars)
    TexInstr.putTexture (served_init vars) instrs
  refine ⟨_, _, runPass_eq (served_init vars) instrs
    fun pool grown tex member => redirectTextureDerefs_eq grown (uses tex member), served.grown,
    ?_, served.apart, ?_⟩
  · intro key index here
    obtain ⟨value, request, entry⟩ := served.exists_request here
    rw [List.nil_append, List.mem_filterMap] at request
    obtain ⟨tex, member, isRequest⟩ := request
    obtain ⟨path, var, redirects, same⟩ := textureRequest_eq_some_iff.mp isRequest
    obtain ⟨rfl, rfl⟩ := Prod.mk.inj same
    exact ⟨tex, member, path, var, redirects, rfl, entry⟩
  · intro k tex here
    obtain ⟨unserved, isServed⟩ := answered k tex here
    cases isRequest : tex.textureRequest vars with
    | none =>
        refine ⟨tex, unserved isRequest, rfl, ?_, fun _ => rfl⟩
        intro path var redirects
        cases isRequest.symm.trans (textureRequest_eq_some_iff.mpr ⟨path, var, redirects, rfl⟩)
    | some request =>
        obtain ⟨index, found, put⟩ := isServed request isRequest
        obtain ⟨path, var, redirects, rfl⟩ := textureRequest_eq_some_iff.mp isRequest
        refine ⟨_, put, rfl, ?_, fun none => absurd redirects (none path var)⟩
        intro path' var' redirects'
        obtain ⟨rfl, rfl⟩ := redirects.unique redirects'
        exact ⟨index, found, by rw [TexInstr.putTexture, redirects.1]; rfl⟩

theorem TexInstr.redirectsTexture_grown {vars' : List SamplerVar} (grown : vars <+: vars')
    (uses : ∃ path, tex.textureDeref = some path ∧ path.var < vars.length) {path : DerefPath}
    {var : SamplerVar} :
    tex.RedirectsTexture vars' path var ↔ tex.RedirectsTexture vars path var := by
  obtain ⟨used, deref, inside⟩ := uses
  obtain ⟨rest, rfl⟩ := grown
  simp only [RedirectsTexture, deref]
  constructor
  · rintro ⟨⟨⟩, here, missing⟩
    exact ⟨rfl, by rwa [List.getElem?_append_left inside] at here, missing⟩
  · rintro ⟨⟨⟩, here, missing⟩
    exact ⟨rfl, by rwa [List.getElem?_append_left inside], missing⟩

theorem exists_splits {instrs : List TexInstr} (uses : ∀ tex ∈ instrs, tex.UsesDerefs vars) :
    ∃ vars' instrs' samplers textures, splitTypedSamplers vars instrs = some (vars', instrs') ∧
      SplitVars vars instrs vars' instrs' samplers textures := by
  obtain ⟨pool, mids, first⟩ := exists_samplerPass uses
  have usesTexture : ∀ tex ∈ mids, ∃ path, tex.textureDeref = some path ∧
      path.var < vars.length := by
    intro tex member
    obtain ⟨old, inside, same⟩ := first.origin tex member
    rw [same]
    exact (uses old inside).2.2
  obtain ⟨pool', instrs', second⟩ := exists_texturePass fun tex member => by
    obtain ⟨path, deref, inside⟩ := usesTexture tex member
    exact ⟨path, deref, Nat.lt_of_lt_of_le inside first.grown.length_le⟩
  refine ⟨pool'.entries, instrs', pool.search, pool'.search, ?_, ?_⟩
  · simp only [splitTypedSamplers, first.run, second.run, Option.bind_eq_bind, Option.bind_some]
  · refine ⟨first.grown.trans second.grown, ?_, ?_, first.apart, second.apart, ?_⟩
    · intro key index here
      obtain ⟨tex, member, path, var, redirects, same, entry⟩ := first.sampler key index here
      refine ⟨tex, member, path, var, redirects, same, ?_⟩
      obtain ⟨rest, grown⟩ := second.grown
      rw [← grown, List.getElem?_append_left (List.getElem?_eq_some_iff.mp entry).1]
      exact entry
    · intro key index here
      obtain ⟨tex, member, path, var, redirects, same, entry⟩ := second.texture key index here
      obtain ⟨old, oldMember, sameDeref⟩ := first.origin tex member
      obtain ⟨deref, inside, missing⟩ :=
        (TexInstr.redirectsTexture_grown first.grown (usesTexture tex member)).mp redirects
      exact ⟨old, oldMember, path, var, ⟨sameDeref ▸ deref, inside, missing⟩, same, entry⟩
    · intro k tex here
      obtain ⟨mid, there, midTexture, sampler, kept⟩ := first.redirected k tex here
      obtain ⟨tex', at', midSampler, texture, kept'⟩ := second.redirected k mid there
      have same : ∀ path var, mid.RedirectsTexture pool.entries path var ↔
          tex.RedirectsTexture vars path var := by
        intro path var
        rw [TexInstr.redirectsTexture_grown first.grown
          (usesTexture mid (List.mem_of_getElem? there)), TexInstr.RedirectsTexture, midTexture,
          TexInstr.RedirectsTexture]
      refine ⟨tex', at', ?_, fun none => midSampler.trans (kept none), ?_,
        fun none => (kept' fun path var => ?_).trans midTexture⟩
      · intro path var redirects
        rw [midSampler]
        exact sampler path var redirects
      · exact fun path var redirects => texture path var ((same path var).mpr redirects)
      · exact fun redirects => none path var ((same path var).mp redirects)

/-! ## Which accesses stay on their object -/

variable (vars)

def samplerVarAt (instrs : List TexInstr) (k : Nat) : Option Nat :=
  (instrs[k]?.bind TexInstr.samplerDeref).map DerefPath.var

def textureVarAt (instrs : List TexInstr) (k : Nat) : Option Nat :=
  (instrs[k]?.bind TexInstr.textureDeref).map DerefPath.var

def SamplerVar.SameBinding (var other : SamplerVar) : Prop :=
  var.descriptorSet = other.descriptorSet ∧ var.binding = other.binding

/-- Every deref is of a variable of the right kind on the binding of the old one, and new
variables are shared by the accesses of one variable that need one type. -/
structure KeepsObjects (instrs : List TexInstr) (vars' : List SamplerVar)
    (instrs' : List TexInstr) : Prop where
  samplers : ∀ (k : Nat) tex path var, instrs[k]? = some tex → tex.samplerDeref = some path →
    vars[path.var]? = some var → ∃ tex' path' var', instrs'[k]? = some tex' ∧
      tex'.samplerDeref = some path' ∧ vars'[path'.var]? = some var' ∧
      var'.HasSampler tex.isShadow ∧ var'.SameBinding var ∧ path'.indices = path.indices ∧
      (¬var.HasSampler tex.isShadow → var'.type = var.type.getBareSamplersForType tex.isShadow)
  textures : ∀ (k : Nat) tex path var, instrs[k]? = some tex → tex.textureDeref = some path →
    vars[path.var]? = some var →
    var.type.withoutArray.samplerTypeToTexture.isTexture = true → ∃ tex' path' var',
      instrs'[k]? = some tex' ∧ tex'.textureDeref = some path' ∧ vars'[path'.var]? = some var' ∧
      var'.type.withoutArray.isTexture = true ∧ var'.SameBinding var ∧
      path'.indices = path.indices ∧ var'.type = var.type.getTexturesForSamplerType
  sharedSamplers : ∀ (k l : Nat) tex other path path' var var', instrs[k]? = some tex →
    instrs[l]? = some other → tex.RedirectsSampler vars path var →
    other.RedirectsSampler vars path' var' →
    (samplerVarAt instrs' k = samplerVarAt instrs' l ↔
      path.var = path'.var ∧ tex.isShadow = other.isShadow)
  sharedTextures : ∀ (k l : Nat) tex other path path' var var', instrs[k]? = some tex →
    instrs[l]? = some other → tex.RedirectsTexture vars path var →
    other.RedirectsTexture vars path' var' →
    (textureVarAt instrs' k = textureVarAt instrs' l ↔ path.var = path'.var)

/-- On one binding there is one variable, used with or without comparison. -/
def BindingsTell (instrs : List TexInstr) : Prop :=
  (∀ tex ∈ instrs, ∀ other ∈ instrs, ∀ path path' var var',
    tex.RedirectsSampler vars path var → other.RedirectsSampler vars path' var' →
    var.SameBinding var' → path.var = path'.var ∧ tex.isShadow = other.isShadow) ∧
  ∀ tex ∈ instrs, ∀ other ∈ instrs, ∀ path path' var var',
    tex.RedirectsTexture vars path var → other.RedirectsTexture vars path' var' →
    var.SameBinding var' → path.var = path'.var

variable {vars}

theorem var_eq_of_var_eq {path path' : DerefPath} {var var' : SamplerVar}
    (here : vars[path.var]? = some var) (there : vars[path'.var]? = some var')
    (same : path.var = path'.var) : var = var' := by
  rw [same, there] at here
  exact (Option.some.inj here).symm

namespace SplitVars

variable {instrs instrs' : List TexInstr} {vars' : List SamplerVar}
  {samplers textures : BitVec 64 → Option Nat}

/-- Redirected samplers share a variable exactly when they share a binding. -/
theorem samplerVarAt_iff (splits : SplitVars vars instrs vars' instrs' samplers textures)
    {k l : Nat} {tex other : TexInstr} {path path' : DerefPath} {var var' : SamplerVar}
    (here : instrs[k]? = some tex) (there : instrs[l]? = some other)
    (redirects : tex.RedirectsSampler vars path var)
    (redirects' : other.RedirectsSampler vars path' var') :
    samplerVarAt instrs' k = samplerVarAt instrs' l ↔ var.SameBinding var' := by
  obtain ⟨tex', at', sampler, -⟩ := splits.redirected k tex here
  obtain ⟨other', atOther, samplerOther, -⟩ := splits.redirected l other there
  obtain ⟨index, found, deref⟩ := sampler path var redirects
  obtain ⟨index', found', deref'⟩ := samplerOther path' var' redirects'
  rw [samplerVarAt, samplerVarAt, at', atOther, Option.bind_some, Option.bind_some, deref, deref',
    Option.map_some, Option.map_some, Option.some.injEq, SamplerVar.SameBinding,
    ← SamplerVar.key_inj]
  constructor
  · rintro rfl
    exact splits.samplersApart _ _ index found found'
  · intro same
    rw [same, found'] at found
    exact (Option.some.inj found).symm

theorem textureVarAt_iff (splits : SplitVars vars instrs vars' instrs' samplers textures)
    {k l : Nat} {tex other : TexInstr} {path path' : DerefPath} {var var' : SamplerVar}
    (here : instrs[k]? = some tex) (there : instrs[l]? = some other)
    (redirects : tex.RedirectsTexture vars path var)
    (redirects' : other.RedirectsTexture vars path' var') :
    textureVarAt instrs' k = textureVarAt instrs' l ↔ var.SameBinding var' := by
  obtain ⟨tex', at', -, -, texture, -⟩ := splits.redirected k tex here
  obtain ⟨other', atOther, -, -, textureOther, -⟩ := splits.redirected l other there
  obtain ⟨index, found, deref⟩ := texture path var redirects
  obtain ⟨index', found', deref'⟩ := textureOther path' var' redirects'
  rw [textureVarAt, textureVarAt, at', atOther, Option.bind_some, Option.bind_some, deref, deref',
    Option.map_some, Option.map_some, Option.some.injEq, SamplerVar.SameBinding,
    ← SamplerVar.key_inj]
  constructor
  · rintro rfl
    exact splits.texturesApart _ _ index found found'
  · intro same
    rw [same, found'] at found
    exact (Option.some.inj found).symm

/-- An access to a sampler that the binding tells gets a variable with that sampler. -/
theorem exists_sampler (splits : SplitVars vars instrs vars' instrs' samplers textures)
    (tells : BindingsTell vars instrs) {k : Nat} {tex : TexInstr} {path : DerefPath}
    {var : SamplerVar} (here : instrs[k]? = some tex)
    (redirects : tex.RedirectsSampler vars path var) :
    ∃ tex' path' var', instrs'[k]? = some tex' ∧ tex'.samplerDeref = some path' ∧
      vars'[path'.var]? = some var' ∧ var'.HasSampler tex.isShadow ∧ var'.SameBinding var ∧
      path'.indices = path.indices ∧ var'.type = var.type.getBareSamplersForType tex.isShadow := by
  obtain ⟨tex', at', sampler, -⟩ := splits.redirected k tex here
  obtain ⟨index, found, deref'⟩ := sampler path var redirects
  obtain ⟨first, member, path', var', redirects', same, entry⟩ := splits.sampler _ index found
  obtain ⟨set, binding⟩ := SamplerVar.key_inj.mp same
  obtain ⟨sameVar, shadow⟩ := tells.1 first member tex (List.mem_of_getElem? here)
    path' path var' var redirects' redirects ⟨set, binding⟩
  obtain rfl := var_eq_of_var_eq redirects'.2.1 redirects.2.1 sameVar
  rw [shadow] at entry
  refine ⟨tex', _, _, at', deref', entry, ?_, ⟨rfl, rfl⟩, rfl, rfl⟩
  have single : (UniformType.bareSampler tex.isShadow).withoutArray =
      UniformType.bareSampler tex.isShadow := rfl
  simp only [SamplerVar.HasSampler, SamplerVar.withSampler,
    UniformType.getBareSamplersForType, UniformType.withoutArray_wrapInArrays single]
  cases tex.isShadow <;> exact ⟨rfl, rfl⟩

theorem not_hasTexture_of_combined {var : SamplerVar}
    (combined : var.type.withoutArray.samplerTypeToTexture.isTexture = true) :
    ¬var.HasTexture := by
  rintro (isTexture | isImage)
  · cases type : var.type.withoutArray <;> simp_all [UniformType.isTexture,
      UniformType.samplerTypeToTexture]
  · cases type : var.type.withoutArray <;> simp_all [UniformType.isTexture,
      UniformType.isImage, UniformType.samplerTypeToTexture]

/-- An access to a texture that the binding tells gets a variable with that texture. -/
theorem exists_texture (splits : SplitVars vars instrs vars' instrs' samplers textures)
    (tells : BindingsTell vars instrs) {k : Nat} {tex : TexInstr} {path : DerefPath}
    {var : SamplerVar} (here : instrs[k]? = some tex)
    (redirects : tex.RedirectsTexture vars path var)
    (combined : var.type.withoutArray.samplerTypeToTexture.isTexture = true) :
    ∃ tex' path' var', instrs'[k]? = some tex' ∧ tex'.textureDeref = some path' ∧
      vars'[path'.var]? = some var' ∧ var'.type.withoutArray.isTexture = true ∧
      var'.SameBinding var ∧ path'.indices = path.indices ∧
      var'.type = var.type.getTexturesForSamplerType := by
  obtain ⟨tex', at', -, -, texture, -⟩ := splits.redirected k tex here
  obtain ⟨index, found, deref'⟩ := texture path var redirects
  obtain ⟨first, member, path', var', redirects', same, entry⟩ := splits.texture _ index found
  obtain ⟨set, binding⟩ := SamplerVar.key_inj.mp same
  have sameVar := tells.2 first member tex (List.mem_of_getElem? here) path' path var' var
    redirects' redirects ⟨set, binding⟩
  obtain rfl := var_eq_of_var_eq redirects'.2.1 redirects.2.1 sameVar
  refine ⟨tex', _, _, at', deref', entry, ?_, ⟨rfl, rfl⟩, rfl, rfl⟩
  simp only [SamplerVar.withTexture, UniformType.getTexturesForSamplerType,
    UniformType.withoutArray_wrapInArrays (UniformType.withoutArray_samplerTypeToTexture _)]
  exact combined

/-- Where objects are kept, equal bindings mean the same object. -/
theorem bindingsTell_of_keepsObjects
    (splits : SplitVars vars instrs vars' instrs' samplers textures)
    (keeps : KeepsObjects vars instrs vars' instrs') : BindingsTell vars instrs := by
  constructor
  · intro tex member other member' path path' var var' redirects redirects' same
    obtain ⟨k, here⟩ := List.getElem?_of_mem member
    obtain ⟨l, there⟩ := List.getElem?_of_mem member'
    apply (keeps.sharedSamplers k l tex other path path' var var' here there redirects
      redirects').mp
    exact (splits.samplerVarAt_iff here there redirects redirects').mpr same
  · intro tex member other member' path path' var var' redirects redirects' same
    obtain ⟨k, here⟩ := List.getElem?_of_mem member
    obtain ⟨l, there⟩ := List.getElem?_of_mem member'
    apply (keeps.sharedTextures k l tex other path path' var var' here there redirects
      redirects').mp
    exact (splits.textureVarAt_iff here there redirects redirects').mpr same

theorem keepsObjects_iff (splits : SplitVars vars instrs vars' instrs' samplers textures) :
    KeepsObjects vars instrs vars' instrs' ↔ BindingsTell vars instrs := by
  refine ⟨splits.bindingsTell_of_keepsObjects, fun tells => ?_⟩
  constructor
  · intro k tex path var here deref inside
    by_cases has : var.HasSampler tex.isShadow
    · obtain ⟨tex', at', sampler, kept, -⟩ := splits.redirected k tex here
      have unmoved : ∀ path var, ¬tex.RedirectsSampler vars path var := by
        rintro path' var' ⟨deref', inside', missing⟩
        obtain rfl := Option.some.inj (deref.symm.trans deref')
        obtain rfl := Option.some.inj (inside.symm.trans inside')
        exact missing has
      refine ⟨tex', path, var, at', (kept unmoved).trans deref, ?_, has, ⟨rfl, rfl⟩, rfl,
        fun missing => absurd has missing⟩
      obtain ⟨rest, rfl⟩ := splits.grown
      rw [List.getElem?_append_left (List.getElem?_eq_some_iff.mp inside).1]
      exact inside
    · obtain ⟨tex', path', var', at', deref', entry, hasSampler, same, indices, type⟩ :=
        splits.exists_sampler tells here ⟨deref, inside, has⟩
      exact ⟨tex', path', var', at', deref', entry, hasSampler, same, indices, fun _ => type⟩
  · intro k tex path var here deref inside combined
    exact splits.exists_texture tells here ⟨deref, inside, not_hasTexture_of_combined combined⟩
      combined
  · intro k l tex other path path' var var' here there redirects redirects'
    rw [splits.samplerVarAt_iff here there redirects redirects']
    constructor
    · exact tells.1 tex (List.mem_of_getElem? here) other (List.mem_of_getElem? there)
        path path' var var' redirects redirects'
    · rintro ⟨same, -⟩
      obtain rfl := var_eq_of_var_eq redirects.2.1 redirects'.2.1 same
      exact ⟨rfl, rfl⟩
  · intro k l tex other path path' var var' here there redirects redirects'
    rw [splits.textureVarAt_iff here there redirects redirects']
    constructor
    · exact tells.2 tex (List.mem_of_getElem? here) other (List.mem_of_getElem? there)
        path path' var var' redirects redirects'
    · intro same
      obtain rfl := var_eq_of_var_eq redirects.2.1 redirects'.2.1 same
      exact ⟨rfl, rfl⟩

end SplitVars

end Requests

/-- The passes keep every access on its object exactly when no binding is used by two variables,
or with and without comparison. -/
theorem splitTypedSamplers_keepsObjects_iff {vars : List SamplerVar} {instrs : List TexInstr}
    (uses : ∀ tex ∈ instrs, tex.UsesDerefs vars) :
    ∃ vars' instrs', splitTypedSamplers vars instrs = some (vars', instrs') ∧
      (KeepsObjects vars instrs vars' instrs' ↔ BindingsTell vars instrs) := by
  obtain ⟨vars', instrs', samplers, textures, split, splits⟩ := exists_splits uses
  exact ⟨vars', instrs', split, splits.keepsObjects_iff⟩

/-- A texture with its sampler on the first binding. -/
def combinedVars : List SamplerVar :=
  [⟨.sampler .dim2d false false (some .float), 0, 0, "tex"⟩]

/-- The texture is sampled without and with comparison. -/
def mixedInstrs : List TexInstr :=
  [⟨false, true, 0, 0, some ⟨0, []⟩, some ⟨0, []⟩⟩, ⟨true, true, 0, 0, some ⟨0, []⟩, some ⟨0, []⟩⟩]

theorem splitTypedSamplers_keepsObjects_iff_mixed :
    ∃ vars' instrs', splitTypedSamplers combinedVars mixedInstrs = some (vars', instrs') ∧
      (KeepsObjects combinedVars mixedInstrs vars' instrs' ↔
        BindingsTell combinedVars mixedInstrs) := by
  apply splitTypedSamplers_keepsObjects_iff
  intro tex member
  rw [mixedInstrs, List.mem_cons, List.mem_singleton] at member
  obtain rfl | rfl := member
  · refine ⟨(nomatch ·), ?_, ⟨0, []⟩, rfl, by decide⟩
    rintro path ⟨⟩
    decide
  · refine ⟨(nomatch ·), ?_, ⟨0, []⟩, rfl, by decide⟩
    rintro path ⟨⟩
    decide

/-- The comparison gets the sampler that the first instruction made. -/
theorem splitTypedSamplers_not_keeps :
    ¬∀ vars instrs vars' instrs', splitTypedSamplers vars instrs = some (vars', instrs') →
      KeepsObjects vars instrs vars' instrs' := by
  intro keeps
  have kept := keeps combinedVars mixedInstrs _ _ rfl
  obtain ⟨tex, path, var, here, deref, inside, has, -⟩ := kept.samplers 1 _ _ _ rfl rfl rfl
  cases here
  cases deref
  cases inside
  revert has
  decide

end SpirvToDxil
