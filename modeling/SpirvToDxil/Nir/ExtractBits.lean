import SpirvToDxil.Util.Components
import SpirvToDxil.Util.MapM
import Mathlib.Data.Nat.Prime.Basic

/-!
# Extracting bits from vectors

Some vectors are one blob of bits, and another vector is built from a range of them. A failed
assertion is `none`.
-/

namespace SpirvToDxil

open Components

/-- A value of the shader, a vector of components. -/
structure Def where
  bitSize : Nat
  components : List (BitVec bitSize)

/-- `1 << (ffs(n) - 1)`, the largest power of two that divides a number of 32 bits. -/
def lowestBit (n : Nat) : Nat := Nat.gcd n (2 ^ 32)

namespace ExtractBits

def maxVecComponents : Nat := 16

/-- Components are shifted to their places from a component on, and combined. -/
def packFrom {c : Nat} (destBitSize i : Nat) (dest : BitVec destBitSize) :
    List (BitVec c) → BitVec destBitSize
  | [] => dest
  | component :: src =>
    packFrom destBitSize (i + 1) (dest ||| component.setWidth destBitSize <<< (i * c)) src

def packBits {c : Nat} (src : List (BitVec c)) (destBitSize : Nat) : Option (BitVec destBitSize) :=
  if src.length * c = destBitSize then some (packFrom destBitSize 0 0#_ src) else none

def unpackBits {c : Nat} (src : BitVec c) (destBitSize : Nat) :
    Option (List (BitVec destBitSize)) :=
  let destNumComponents := c / destBitSize
  if destBitSize ≤ c ∧ destNumComponents ≤ maxVecComponents then
    some ((List.range destNumComponents).map fun i =>
      (src >>> (i * destBitSize)).setWidth destBitSize)
  else none

/-- The component of a source in which a bit is. -/
def componentAt (src : Def) (relBit commonBitSize : Nat) : Option (BitVec commonBitSize) := do
  let comp ← src.components[relBit / src.bitSize]?
  if commonBitSize < src.bitSize then
    let unpacked ← unpackBits comp commonBitSize
    unpacked[relBit % src.bitSize / commonBitSize]?
  else some (comp.setWidth commonBitSize)

/-- The source in which a bit is and those after it, from one that starts at `srcStartBit` on. -/
def seek (bit srcStartBit : Nat) : List Def → Option (Nat × Def × List Def)
  | [] => none
  | src :: srcs =>
    let srcEndBit := srcStartBit + src.bitSize * src.components.length
    if srcEndBit ≤ bit then seek bit srcEndBit srcs else some (srcStartBit, src, srcs)

/-- Components of the common size from a bit on. -/
def commonComps (commonBitSize bit srcStartBit : Nat) (srcs : List Def) :
    Nat → Option (List (BitVec commonBitSize))
  | 0 => some []
  | count + 1 => do
    let (srcStartBit, src, rest) ← seek bit srcStartBit srcs
    let srcEndBit := srcStartBit + src.bitSize * src.components.length
    if bit + commonBitSize ≤ srcEndBit then
      let comp ← componentAt src (bit - srcStartBit) commonBitSize
      let comps ← commonComps commonBitSize (bit + commonBitSize) srcStartBit (src :: rest) count
      some (comp :: comps)
    else none

def commonBitSize (srcs : List Def) (firstBit destBitSize : Nat) : Nat :=
  let commonBitSize := srcs.foldl (fun size src => min size src.bitSize) destBitSize
  if 0 < firstBit then min commonBitSize (lowestBit firstBit) else commonBitSize

def extractBits (srcs : List Def) (firstBit destNumComponents destBitSize : Nat) :
    Option (List (BitVec destBitSize)) := do
  let numBits := destNumComponents * destBitSize
  let commonBitSize := commonBitSize srcs firstBit destBitSize
  if 8 ≤ commonBitSize ∧ numBits / commonBitSize ≤ maxVecComponents * 8 then
    let comps ← commonComps commonBitSize firstBit 0 srcs (numBits / commonBitSize)
    if commonBitSize < destBitSize then
      let commonPerDest := destBitSize / commonBitSize
      (List.range destNumComponents).mapM fun i =>
        packBits ((comps.drop (i * commonPerDest)).take commonPerDest) destBitSize
    else if destBitSize = commonBitSize then
      some ((comps.take destNumComponents).map (BitVec.setWidth destBitSize))
    else none
  else none

/-- The bits of sources one after the other. -/
def blobBit : List Def → Nat → Bool
  | [], _ => false
  | src :: srcs, i =>
    if i < src.bitSize * src.components.length then bit src.components i
    else blobBit srcs (i - src.bitSize * src.components.length)

def blobSize : List Def → Nat
  | [] => 0
  | src :: srcs => src.bitSize * src.components.length + blobSize srcs

section Packing

variable {c : Nat}

theorem getLsbD_packFrom {destBitSize i j : Nat} (dest : BitVec destBitSize)
    (src : List (BitVec c)) (less : j < destBitSize) :
    (packFrom destBitSize i dest src).getLsbD j =
      (dest.getLsbD j || (decide (i * c ≤ j) && bit src (j - i * c))) := by
  induction src generalizing i dest with
  | nil => simp [packFrom, bit]
  | cons component src inductionHypothesis =>
      have next : (i + 1) * c = i * c + c := Nat.succ_mul i c
      rw [packFrom, inductionHypothesis, bit_cons, BitVec.getLsbD_or, BitVec.getLsbD_shiftLeft,
        BitVec.getLsbD_setWidth, next, Nat.sub_add_eq]
      rcases Nat.lt_or_ge j (i * c) with before | after
      · simp [before, Nat.not_le.mpr before, Nat.not_le.mpr (Nat.lt_add_right c before)]
      · have inDest : j - i * c < destBitSize := by omega
        by_cases inside : j - i * c < c
        · have notNext : ¬i * c + c ≤ j := by omega
          simp [less, after, inDest, inside, notNext, Nat.not_lt.mpr after]
        · have isNext : i * c + c ≤ j := by omega
          have outside : component.getLsbD (j - i * c) = false :=
            BitVec.getLsbD_of_ge _ _ (Nat.not_lt.mp inside)
          simp [inside, isNext, after, outside]

theorem packBits_eq {destBitSize : Nat} {src : List (BitVec c)}
    (whole : src.length * c = destBitSize) :
    ∃ dest, packBits src destBitSize = some dest ∧
      ∀ j < destBitSize, dest.getLsbD j = bit src j := by
  refine ⟨_, if_pos whole, ?_⟩
  intro j less
  simp [getLsbD_packFrom _ _ less]

theorem unpackBits_eq {destBitSize : Nat} (src : BitVec c) (eight : 8 ≤ destBitSize)
    (le : destBitSize ≤ c) (short : c ≤ 128) {i : Nat} (less : i < c / destBitSize) :
    ∃ unpacked comp, unpackBits src destBitSize = some unpacked ∧ unpacked[i]? = some comp ∧
      ∀ j < destBitSize, comp.getLsbD j = src.getLsbD (i * destBitSize + j) := by
  have few : c / destBitSize ≤ 16 := Nat.div_le_of_le_mul (by omega)
  refine ⟨_, (src >>> (i * destBitSize)).setWidth destBitSize, if_pos ⟨le, few⟩, ?_, ?_⟩
  · simp [less]
  · intro j inside
    simp [inside]

theorem componentAt_eq {src : Def} {relBit commonBitSize : Nat} (eight : 8 ≤ commonBitSize)
    (divides : commonBitSize ∣ src.bitSize) (short : src.bitSize ≤ 128)
    (aligned : commonBitSize ∣ relBit) (inside : relBit < src.bitSize * src.components.length) :
    ∃ comp, componentAt src relBit commonBitSize = some comp ∧
      ∀ j < commonBitSize, comp.getLsbD j = bit src.components (relBit + j) := by
  obtain ⟨bitSize, components⟩ := src
  have positive : 0 < bitSize := Nat.pos_of_mul_pos_right (Nat.zero_lt_of_lt inside)
  have index : relBit / bitSize < components.length := Nat.div_lt_of_lt_mul inside
  have rest := Nat.mod_lt relBit positive
  have alignedRest : commonBitSize ∣ relBit % bitSize := (Nat.dvd_mod_iff divides).mpr aligned
  have room : relBit % bitSize + commonBitSize ≤ bitSize := by
    obtain ⟨m, rfl⟩ := divides
    obtain ⟨q, eq⟩ := alignedRest
    rw [eq] at rest ⊢
    rw [← Nat.mul_succ]
    exact Nat.mul_le_mul_left _ (Nat.lt_of_mul_lt_mul_left rest)
  have bits : ∀ j < commonBitSize, bit components (relBit + j) =
      (components[relBit / bitSize]).getLsbD (relBit % bitSize + j) := by
    intro j less
    have place : relBit + j = relBit / bitSize * bitSize + (relBit % bitSize + j) := by
      rw [← Nat.add_assoc, Nat.div_add_mod']
    rw [place, bit_of_component _ (by omega), List.getD_eq_getElem?_getD,
      List.getElem?_eq_getElem index]
    rfl
  simp only [componentAt, List.getElem?_eq_getElem index, Option.bind_eq_bind, Option.bind_some]
  rcases Nat.lt_or_eq_of_le (Nat.le_of_dvd positive divides) with smaller | rfl
  · have inVector : relBit % bitSize / commonBitSize < bitSize / commonBitSize :=
      Nat.div_lt_div_of_lt_of_dvd divides rest
    obtain ⟨unpacked, comp, isUnpacked, isComp, compBits⟩ :=
      unpackBits_eq components[relBit / bitSize] eight (Nat.le_of_lt smaller) short inVector
    rw [if_pos smaller, isUnpacked, Option.bind_some, isComp]
    refine ⟨comp, rfl, ?_⟩
    intro j less
    rw [compBits j less, bits j less, Nat.div_mul_cancel alignedRest]
  · rw [if_neg (Nat.lt_irrefl _)]
    refine ⟨_, rfl, ?_⟩
    intro j less
    rw [bits j less, Nat.eq_zero_of_dvd_of_lt alignedRest rest, Nat.zero_add, BitVec.setWidth_eq]

end Packing

section Blob

variable {commonBitSize : Nat}

/-- The source that is found holds the bit, and the later bits are those of it and of the ones
after it. -/
theorem seek_eq {bit srcStartBit : Nat} {srcs : List Def} (late : srcStartBit ≤ bit)
    (inside : bit < srcStartBit + blobSize srcs) (aligned : commonBitSize ∣ srcStartBit)
    (divides : ∀ src ∈ srcs, commonBitSize ∣ src.bitSize) :
    ∃ start src rest, seek bit srcStartBit srcs = some (start, src, rest) ∧
      srcStartBit ≤ start ∧ start ≤ bit ∧
      bit < start + src.bitSize * src.components.length ∧ commonBitSize ∣ start ∧
      (∀ src' ∈ src :: rest, src' ∈ srcs) ∧
      start + blobSize (src :: rest) = srcStartBit + blobSize srcs ∧
      ∀ i, start ≤ i → blobBit (src :: rest) (i - start) = blobBit srcs (i - srcStartBit) := by
  induction srcs generalizing srcStartBit with
  | nil =>
      rw [blobSize] at inside
      omega
  | cons src srcs inductionHypothesis =>
      rw [seek]
      split
      next past =>
        rw [blobSize, ← Nat.add_assoc] at inside
        have dvd : commonBitSize ∣ srcStartBit + src.bitSize * src.components.length :=
          Nat.dvd_add aligned (Nat.dvd_mul_right_of_dvd (divides src List.mem_cons_self) _)
        obtain ⟨start, src', rest, found, first, le, less, alignedStart, members, size, bits⟩ :=
          inductionHypothesis past inside dvd
            (fun src' member => divides src' (List.mem_cons_of_mem src member))
        refine ⟨start, src', rest, found, by omega, le, less, alignedStart, ?_, ?_, ?_⟩
        · intro src'' member
          exact List.mem_cons_of_mem src (members src'' member)
        · rw [size, blobSize, Nat.add_assoc]
        · intro i after
          rw [bits i after, blobBit, if_neg (by omega), Nat.sub_add_eq]
      next here =>
        refine ⟨srcStartBit, src, srcs, rfl, Nat.le_refl _, late, Nat.not_le.mp here, aligned,
          ?_, rfl, ?_⟩
        · exact fun _ member => member
        · exact fun _ _ => rfl

/-- Every component of the common size is taken out of one source. -/
theorem commonComps_eq (eight : 8 ≤ commonBitSize) {first srcStartBit count : Nat}
    {srcs : List Def} (late : srcStartBit ≤ first)
    (room : first + count * commonBitSize ≤ srcStartBit + blobSize srcs)
    (alignedBit : commonBitSize ∣ first) (aligned : commonBitSize ∣ srcStartBit)
    (divides : ∀ src ∈ srcs, commonBitSize ∣ src.bitSize)
    (short : ∀ src ∈ srcs, src.bitSize ≤ 128) :
    ∃ comps, commonComps commonBitSize first srcStartBit srcs count = some comps ∧
      comps.length = count ∧
      ∀ i < count * commonBitSize, bit comps i = blobBit srcs (first - srcStartBit + i) := by
  induction count generalizing first srcStartBit srcs with
  | zero =>
      refine ⟨[], rfl, rfl, ?_⟩
      intro i less
      omega
  | succ count inductionHypothesis =>
      rw [Nat.succ_mul] at room
      obtain ⟨start, src, rest, found, after, le, less, alignedStart, members, size, bits⟩ :=
        seek_eq late (by omega) aligned divides
      have dvdSrc := divides src (members src List.mem_cons_self)
      have shortSrc := short src (members src List.mem_cons_self)
      have dvdSize : commonBitSize ∣ start + src.bitSize * src.components.length :=
        Nat.dvd_add alignedStart (Nat.dvd_mul_right_of_dvd dvdSrc _)
      have fits : first + commonBitSize ≤ start + src.bitSize * src.components.length := by
        have le := Nat.le_of_dvd (by omega) (Nat.dvd_sub dvdSize alignedBit)
        omega
      obtain ⟨comp, isComp, compBits⟩ := componentAt_eq eight dvdSrc shortSrc
        (Nat.dvd_sub alignedBit alignedStart) (by omega : first - start < _)
      obtain ⟨comps, areComps, length, compsBits⟩ := @inductionHypothesis
        (first + commonBitSize) start (src :: rest) (by omega) (by omega)
        (Nat.dvd_add alignedBit (Nat.dvd_refl _)) alignedStart
        (fun src' member => divides src' (members src' member))
        (fun src' member => short src' (members src' member))
      refine ⟨comp :: comps, ?_, by rw [List.length_cons, length], ?_⟩
      · simp only [commonComps, found, Option.bind_eq_bind, Option.bind_some, if_pos fits,
          isComp, areComps]
      · intro i inside
        rw [Nat.succ_mul] at inside
        have shifted : first - srcStartBit + i = first + i - srcStartBit := by omega
        rw [bit_cons, shifted, ← bits (first + i) (by omega)]
        split
        next inComp =>
          have here : first + i - start < src.bitSize * src.components.length := by omega
          rw [compBits i inComp, blobBit, if_pos here]
          congr 1
          omega
        next later =>
          rw [compsBits _ (by omega)]
          congr 1
          omega

end Blob

/-- The sizes of the components of a vector of whole bytes. -/
def IsSize (bitSize : Nat) : Prop := ∃ k, 3 ≤ k ∧ bitSize = 2 ^ k

theorem IsSize.eight_le {bitSize : Nat} (isSize : IsSize bitSize) : 8 ≤ bitSize := by
  obtain ⟨k, wide, rfl⟩ := isSize
  exact Nat.pow_le_pow_right Nat.zero_lt_two wide

theorem IsSize.eight_dvd {bitSize : Nat} (isSize : IsSize bitSize) : 8 ∣ bitSize := by
  obtain ⟨k, wide, rfl⟩ := isSize
  exact Nat.pow_dvd_pow 2 wide

theorem IsSize.pos {bitSize : Nat} (isSize : IsSize bitSize) : 0 < bitSize :=
  Nat.lt_of_lt_of_le (by decide) isSize.eight_le

theorem isSize_min {a b : Nat} (first : IsSize a) (second : IsSize b) :
    IsSize (min a b) ∧ min a b ∣ a ∧ min a b ∣ b := by
  obtain ⟨k, wide, rfl⟩ := first
  obtain ⟨k', wide', rfl⟩ := second
  rcases Nat.le_total k k' with le | le
  · rw [Nat.min_eq_left (Nat.pow_le_pow_right (by decide) le)]
    exact ⟨⟨k, wide, rfl⟩, Nat.dvd_refl _, Nat.pow_dvd_pow 2 le⟩
  · rw [Nat.min_eq_right (Nat.pow_le_pow_right (by decide) le)]
    exact ⟨⟨k', wide', rfl⟩, Nat.pow_dvd_pow 2 le, Nat.dvd_refl _⟩

theorem isSize_lowestBit {n : Nat} (bytes : 8 ∣ n) : IsSize (lowestBit n) ∧ lowestBit n ∣ n := by
  refine ⟨?_, Nat.gcd_dvd_left _ _⟩
  obtain ⟨k, _, eq⟩ := (Nat.dvd_prime_pow Nat.prime_two).mp (Nat.gcd_dvd_right n (2 ^ 32))
  refine ⟨k, ?_, eq⟩
  have eight : 2 ^ 3 ∣ 2 ^ k := eq ▸ Nat.dvd_gcd bytes (by decide)
  exact (Nat.pow_dvd_pow_iff_le_right (by decide)).mp eight

theorem isSize_foldl {srcs : List Def} {size : Nat} (isSize : IsSize size)
    (sizes : ∀ src ∈ srcs, IsSize src.bitSize) :
    let common := srcs.foldl (fun size src => min size src.bitSize) size
    IsSize common ∧ common ∣ size ∧ ∀ src ∈ srcs, common ∣ src.bitSize := by
  induction srcs generalizing size with
  | nil => exact ⟨isSize, Nat.dvd_refl _, by simp⟩
  | cons src srcs inductionHypothesis =>
      obtain ⟨isMin, dvdSize, dvdSrc⟩ := isSize_min isSize (sizes src List.mem_cons_self)
      obtain ⟨isCommon, dvdMin, dvdSrcs⟩ := inductionHypothesis isMin
        (fun src' member => sizes src' (List.mem_cons_of_mem src member))
      refine ⟨isCommon, Nat.dvd_trans dvdMin dvdSize, ?_⟩
      intro src' member
      rcases List.mem_cons.mp member with rfl | member
      · exact Nat.dvd_trans dvdMin dvdSrc
      · exact dvdSrcs src' member

theorem commonBitSize_spec {srcs : List Def} {firstBit destBitSize : Nat}
    (isSize : IsSize destBitSize) (sizes : ∀ src ∈ srcs, IsSize src.bitSize)
    (bytes : 8 ∣ firstBit) :
    let common := commonBitSize srcs firstBit destBitSize
    IsSize common ∧ common ∣ destBitSize ∧ common ∣ firstBit ∧
      ∀ src ∈ srcs, common ∣ src.bitSize := by
  obtain ⟨isFold, dvdDest, dvdSrcs⟩ := isSize_foldl isSize sizes
  unfold commonBitSize
  dsimp only
  split
  next =>
    obtain ⟨isLowest, dvdFirst⟩ := isSize_lowestBit bytes
    obtain ⟨isMin, dvdFold, dvdLowest⟩ := isSize_min isFold isLowest
    exact ⟨isMin, Nat.dvd_trans dvdFold dvdDest, Nat.dvd_trans dvdLowest dvdFirst,
      fun src member => Nat.dvd_trans dvdFold (dvdSrcs src member)⟩
  next zero =>
    obtain rfl : firstBit = 0 := by omega
    exact ⟨isFold, dvdDest, Nat.dvd_zero _, dvdSrcs⟩

theorem extractBits_eq {srcs : List Def} {firstBit destNumComponents destBitSize : Nat}
    (isSize : IsSize destBitSize) (sizes : ∀ src ∈ srcs, IsSize src.bitSize)
    (short : ∀ src ∈ srcs, src.bitSize ≤ 128) (bytes : 8 ∣ firstBit)
    (room : firstBit + destNumComponents * destBitSize ≤ blobSize srcs)
    (few : destNumComponents * destBitSize ≤ 1024) :
    ∃ dest, extractBits srcs firstBit destNumComponents destBitSize = some dest ∧
      dest.length = destNumComponents ∧
      ∀ i < destNumComponents * destBitSize, bit dest i = blobBit srcs (firstBit + i) := by
  obtain ⟨isCommon, dvdDest, dvdFirst, dvdSrcs⟩ := commonBitSize_spec isSize sizes bytes
  have eight := isCommon.eight_le
  unfold extractBits
  dsimp only
  generalize commonBitSize srcs firstBit destBitSize = common at *
  have count : destNumComponents * destBitSize / common * common =
      destNumComponents * destBitSize :=
    Nat.div_mul_cancel (Nat.dvd_mul_left_of_dvd dvdDest _)
  have fewComps : destNumComponents * destBitSize / common ≤ maxVecComponents * 8 :=
    Nat.div_le_of_le_mul (Nat.le_trans few (Nat.mul_le_mul_right 128 eight))
  obtain ⟨comps, areComps, length, bits⟩ := commonComps_eq eight (Nat.zero_le firstBit)
    (by rw [count, Nat.zero_add]; exact room) dvdFirst (Nat.dvd_zero _) dvdSrcs short
  rw [count, Nat.sub_zero] at bits
  rw [if_pos ⟨eight, fewComps⟩, areComps, Option.bind_eq_bind, Option.bind_some]
  rcases Nat.lt_or_eq_of_le (Nat.le_of_dvd isSize.pos dvdDest) with
    smaller | rfl
  · rw [Nat.mul_div_assoc _ dvdDest] at length
    have per : destBitSize / common * common = destBitSize := Nat.div_mul_cancel dvdDest
    have packed : ∀ i < destNumComponents, ∃ dest,
        packBits ((comps.drop (i * (destBitSize / common))).take (destBitSize / common))
          destBitSize = some dest ∧
        ∀ j < destBitSize, dest.getLsbD j = bit comps (i * destBitSize + j) := by
      intro i less
      have inComps := Nat.mul_le_mul_right (destBitSize / common) less
      rw [Nat.succ_mul] at inComps
      have groupLength : ((comps.drop (i * (destBitSize / common))).take
          (destBitSize / common)).length = destBitSize / common := by
        rw [List.length_take, List.length_drop, length]
        omega
      obtain ⟨dest, isDest, destBits⟩ := packBits_eq (by rw [groupLength, per])
      refine ⟨dest, isDest, ?_⟩
      intro j inside
      rw [destBits j inside, bit_take_drop _ (by rwa [per]), Nat.mul_assoc, per]
    choose! dest isDest destBits using packed
    rw [if_pos smaller, mapM_eq_some_map fun i member => isDest i (List.mem_range.mp member)]
    refine ⟨_, rfl, by simp, ?_⟩
    intro i less
    have inVector : i / destBitSize < destNumComponents :=
      Nat.div_lt_of_lt_mul (by rwa [Nat.mul_comm])
    rw [bit_map_range _ less, destBits _ inVector _ (Nat.mod_lt _ isSize.pos), Nat.div_add_mod',
      bits i less]
  · rw [if_neg (Nat.lt_irrefl _), if_pos rfl]
    have all : destNumComponents * common / common = destNumComponents :=
      Nat.mul_div_cancel _ (by omega)
    rw [all] at length
    have same : (comps.take destNumComponents).map (BitVec.setWidth common) = comps := by
      rw [List.take_of_length_le (Nat.le_of_eq length)]
      exact (List.map_congr_left fun comp _ => BitVec.setWidth_eq comp).trans (List.map_id _)
    exact ⟨comps, by rw [same], length, bits⟩

/-- The sources have so many bytes, with these bits. -/
structure Spans (srcs : List Def) (bytes : Nat) (bits : Nat → Bool) : Prop where
  sizes : ∀ src ∈ srcs, IsSize src.bitSize
  short : ∀ src ∈ srcs, src.bitSize ≤ 128
  size : blobSize srcs = 8 * bytes
  bits : ∀ i < 8 * bytes, blobBit srcs i = bits i

section Spans

variable {srcs srcs' : List Def} {bytes bytes' : Nat} {bits : Nat → Bool}

theorem blobSize_append (srcs srcs' : List Def) :
    blobSize (srcs ++ srcs') = blobSize srcs + blobSize srcs' := by
  induction srcs with
  | nil => exact (Nat.zero_add _).symm
  | cons src srcs inductionHypothesis =>
      rw [List.cons_append, blobSize, blobSize, inductionHypothesis, Nat.add_assoc]

theorem blobBit_append (srcs srcs' : List Def) (i : Nat) :
    blobBit (srcs ++ srcs') i =
      if i < blobSize srcs then blobBit srcs i else blobBit srcs' (i - blobSize srcs) := by
  induction srcs generalizing i with
  | nil => simp [blobSize]
  | cons src srcs inductionHypothesis =>
      rw [List.cons_append, blobBit, blobBit, blobSize, inductionHypothesis]
      split
      next inside => rw [if_pos (Nat.lt_add_right _ inside)]
      next past =>
        rw [Nat.sub_add_eq]
        split
        next => rw [if_pos (by omega)]
        next => rw [if_neg (by omega)]

theorem spans_nil (bits : Nat → Bool) : Spans [] 0 bits :=
  { sizes := by simp
    short := by simp
    size := rfl
    bits := by simp }

theorem spans_single {src : Def} (isSize : IsSize src.bitSize) (short : src.bitSize ≤ 128)
    (size : src.bitSize * src.components.length = 8 * bytes)
    (same : ∀ i < 8 * bytes, bit src.components i = bits i) : Spans [src] bytes bits := by
  constructor
  · simpa using isSize
  · simpa using short
  · rw [blobSize, blobSize, size, Nat.add_zero]
  · intro i less
    rw [blobBit, if_pos (by omega), same i less]

theorem Spans.congr {bits' : Nat → Bool} (spans : Spans srcs bytes bits)
    (same : ∀ i < 8 * bytes, bits i = bits' i) : Spans srcs bytes bits' :=
  { spans with bits := fun i less => (spans.bits i less).trans (same i less) }

theorem Spans.append (spans : Spans srcs bytes bits)
    (spans' : Spans srcs' bytes' fun i => bits (8 * bytes + i)) :
    Spans (srcs ++ srcs') (bytes + bytes') bits := by
  constructor
  · intro src member
    exact (List.mem_append.mp member).elim (spans.sizes src) (spans'.sizes src)
  · intro src member
    exact (List.mem_append.mp member).elim (spans.short src) (spans'.short src)
  · rw [blobSize_append, spans.size, spans'.size, Nat.mul_add]
  · intro i less
    rw [blobBit_append, spans.size]
    split
    next inside => exact spans.bits i inside
    next past =>
      rw [spans'.bits _ (by omega), Nat.add_sub_cancel' (Nat.not_lt.mp past)]

theorem spans_map_range {w count : Nat} (isSize : IsSize w) (short : w ≤ 128)
    (whole : w = 8 * bytes) (component : Nat → List (BitVec w))
    (length : ∀ i < count, (component i).length = 1)
    (same : ∀ i < count, ∀ j < w, bit (component i) j = bits (i * w + j)) :
    Spans ((List.range count).map fun i => ⟨w, component i⟩) (count * bytes) bits := by
  induction count with
  | zero =>
      rw [Nat.zero_mul]
      exact spans_nil bits
  | succ count inductionHypothesis =>
      rw [List.range_succ, List.map_append, Nat.succ_mul]
      apply Spans.append
      · exact inductionHypothesis (fun i less => length i (Nat.lt_succ_of_lt less))
          (fun i less => same i (Nat.lt_succ_of_lt less))
      · apply spans_single isSize short
        · rw [length count (Nat.lt_succ_self count), Nat.mul_one]
          exact whole
        · intro j less
          have place : count * w = 8 * (count * bytes) := by rw [whole, Nat.mul_left_comm]
          rw [same count (Nat.lt_succ_self count) j (by omega), place]

end Spans

end ExtractBits

end SpirvToDxil
