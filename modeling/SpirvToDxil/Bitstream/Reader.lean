import SpirvToDxil.Bitstream.Bits

/-!
# Bit readers

A reader consumes bits from a cursor, which also knows how far into the stream
it stands: alignment depends on that position.  `Reads pos reader bits value` is
the rule by which formats are verified: standing at `pos` in front of `bits`,
the reader returns `value` and stops exactly behind them, whatever follows.
-/

namespace Bitstream

/-- A place in a bit stream: how many bits lie before it, and those after it. -/
structure Cursor where
  pos : Nat
  rest : List Bool
  deriving DecidableEq, Repr

def Cursor.start (bits : List Bool) : Cursor := ⟨0, bits⟩

abbrev Reader (α : Type) := StateT Cursor Option α

/-- `reader`, standing at `pos` in front of `bits`, consumes exactly them. -/
def Reads {α : Type} (pos : Nat) (reader : Reader α) (bits : List Bool) (value : α) : Prop :=
  ∀ rest, reader ⟨pos, bits ++ rest⟩ = some (value, ⟨pos + bits.length, rest⟩)

section Rules

variable {α β : Type} {pos : Nat}

theorem Reads.pure (value : α) : Reads pos (pure value) [] value :=
  fun _ => rfl

theorem Reads.bind {first : Reader α} {next : α → Reader β} {bits bits' : List Bool} {a : α} {b : β}
    (head : Reads pos first bits a) (tail : Reads (pos + bits.length) (next a) bits' b) :
    Reads pos (first >>= next) (bits ++ bits') b := by
  intro rest
  show (first ⟨pos, bits ++ bits' ++ rest⟩).bind (fun p => next p.1 p.2) = _
  rw [List.append_assoc, head]
  simpa [Nat.add_assoc] using tail rest

theorem Reads.bind_nil {first : Reader α} {next : α → Reader β} {bits : List Bool} {a : α} {b : β}
    (head : Reads pos first bits a) (tail : Reads (pos + bits.length) (next a) [] b) :
    Reads pos (first >>= next) bits b := by
  simpa using head.bind tail

theorem Reads.nil_bind {first : Reader α} {next : α → Reader β} {bits : List Bool} {a : α} {b : β}
    (head : Reads pos first [] a) (tail : Reads pos (next a) bits b) :
    Reads pos (first >>= next) bits b :=
  head.bind (by simpa using tail)

theorem Reads.map {first : Reader α} {f : α → β} {bits : List Bool} {a : α}
    (head : Reads pos first bits a) : Reads pos (f <$> first) bits (f a) := by
  intro rest
  show (first ⟨pos, bits ++ rest⟩).bind _ = _
  rw [head]
  rfl

end Rules

/-! ## Primitive readers -/

def fixed (width : Nat) : Reader Nat := fun cursor =>
  if width ≤ cursor.rest.length then
    some (natOfBits (cursor.rest.take width), ⟨cursor.pos + width, cursor.rest.drop width⟩)
  else none

def alignTo (unit : Nat) : Reader Unit := fun cursor =>
  let skip := (unit - cursor.pos % unit) % unit
  if skip ≤ cursor.rest.length then some ((), ⟨cursor.pos + skip, cursor.rest.drop skip⟩)
  else none

def guardRead (condition : Prop) [Decidable condition] : Reader Unit := fun cursor =>
  if condition then some ((), cursor) else none

theorem reads_fixed {pos width n : Nat} (fits : n < 2 ^ width) :
    Reads pos (fixed width) (bitsOfNat width n) n := by
  intro rest
  simp [fixed, natOfBits_bitsOfNat_of_lt fits]

/-- The padding written to reach a multiple of `unit` bits. -/
def padding (unit pos : Nat) : List Bool :=
  List.replicate ((unit - pos % unit) % unit) false

@[simp] theorem length_padding (unit pos : Nat) :
    (padding unit pos).length = (unit - pos % unit) % unit := by
  simp [padding]

theorem padding_aligns {unit pos : Nat} (positive : 0 < unit) :
    (pos + (padding unit pos).length) % unit = 0 := by
  have below : pos % unit < unit := Nat.mod_lt pos positive
  rw [length_padding, Nat.add_mod_mod, Nat.add_mod]
  by_cases aligned : pos % unit = 0
  · simp [aligned]
  · rw [Nat.mod_eq_of_lt (show unit - pos % unit < unit by omega)]
    have : pos % unit + (unit - pos % unit) = unit := by omega
    rw [this, Nat.mod_self]

theorem reads_alignTo (pos unit : Nat) :
    Reads pos (alignTo unit) (padding unit pos) () := by
  intro rest
  have skipped : (padding unit pos ++ rest).drop ((unit - pos % unit) % unit) = rest := by
    rw [← length_padding, List.drop_left]
  simp [alignTo, skipped]

theorem reads_guardRead {pos : Nat} {condition : Prop} [Decidable condition] (holds : condition) :
    Reads pos (guardRead condition) [] () := by
  intro rest
  simp [guardRead, holds]

/-! ## Variable-width numbers

A number is cut into groups of `width - 1` bits, low group first, and each group
is written in a chunk of `width` bits whose top bit says that another follows.
-/

/-- The chunks of `n`; the fuel bounds the number of continued groups. -/
def vbrBitsFuel (width : Nat) : Nat → Nat → List Bool
  | 0, n => bitsOfNat width n
  | fuel + 1, n =>
    if n < 2 ^ (width - 1) then bitsOfNat width n
    else bitsOfNat width (n % 2 ^ (width - 1) + 2 ^ (width - 1)) ++
      vbrBitsFuel width fuel (n / 2 ^ (width - 1))

/-- The variable-width encoding of `n` in chunks of `width` bits. -/
def vbrBits (width n : Nat) : List Bool := vbrBitsFuel width n n

def vbrFuel (width : Nat) : Nat → Reader Nat
  | 0 => failure
  | fuel + 1 => do
    let chunk ← fixed width
    if chunk < 2 ^ (width - 1) then pure chunk
    else do
      let high ← vbrFuel width fuel
      pure (chunk - 2 ^ (width - 1) + 2 ^ (width - 1) * high)

/-- Read a variable-width number; every chunk takes at least one bit. -/
def vbr (width : Nat) : Reader Nat := fun cursor =>
  vbrFuel width cursor.rest.length cursor

section Vbr

variable {width : Nat} (wide : 1 < width)
include wide

theorem group_pos : 2 ≤ 2 ^ (width - 1) := by
  calc 2 = 2 ^ 1 := rfl
    _ ≤ 2 ^ (width - 1) := Nat.pow_le_pow_right (by norm_num) (by omega)

theorem two_groups : 2 ^ width = 2 ^ (width - 1) + 2 ^ (width - 1) := by
  have : 2 ^ width = 2 ^ (width - 1 + 1) := by congr 1; omega
  rw [this, Nat.pow_succ]
  omega

theorem div_group_lt {n : Nat} (large : ¬ n < 2 ^ (width - 1)) : n / 2 ^ (width - 1) < n := by
  have := group_pos wide
  exact Nat.div_lt_self (by omega) (by omega)

theorem vbrBitsFuel_eq {fuel fuel' n : Nat} (enough : n ≤ fuel) (enough' : n ≤ fuel') :
    vbrBitsFuel width fuel n = vbrBitsFuel width fuel' n := by
  induction fuel generalizing fuel' n with
  | zero =>
    have : n = 0 := by omega
    subst this
    cases fuel' <;> simp [vbrBitsFuel]
  | succ fuel ih =>
    cases fuel' with
    | zero =>
      have : n = 0 := by omega
      subst this
      simp [vbrBitsFuel]
    | succ fuel' =>
      simp only [vbrBitsFuel]
      split
      · rfl
      · rename_i large
        have := div_group_lt wide large
        rw [ih (show _ ≤ fuel by omega) (show _ ≤ fuel' by omega)]

omit wide in
theorem vbrBits_of_lt {n : Nat} (small : n < 2 ^ (width - 1)) :
    vbrBits width n = bitsOfNat width n := by
  unfold vbrBits
  cases n <;> simp [vbrBitsFuel, small]

theorem vbrBits_of_not_lt {n : Nat} (large : ¬ n < 2 ^ (width - 1)) :
    vbrBits width n = bitsOfNat width (n % 2 ^ (width - 1) + 2 ^ (width - 1)) ++
      vbrBits width (n / 2 ^ (width - 1)) := by
  have shrinks := div_group_lt wide large
  unfold vbrBits
  cases n with
  | zero => exact absurd (Nat.two_pow_pos _) large
  | succ n =>
    rw [vbrBitsFuel, if_neg large]
    rw [vbrBitsFuel_eq wide (by omega) (Nat.le_refl _)]

theorem vbrBits_ne_nil (n : Nat) : 0 < (vbrBits width n).length := by
  by_cases small : n < 2 ^ (width - 1)
  · rw [vbrBits_of_lt small, length_bitsOfNat]
    omega
  · rw [vbrBits_of_not_lt wide small, List.length_append, length_bitsOfNat]
    omega

theorem reads_vbrFuel (n : Nat) : ∀ (pos fuel : Nat), (vbrBits width n).length ≤ fuel →
    Reads pos (vbrFuel width fuel) (vbrBits width n) n := by
  induction n using Nat.strong_induction_on with
  | _ n ih =>
    intro pos fuel enough
    have groups := two_groups wide
    cases fuel with
    | zero =>
      have := vbrBits_ne_nil wide n
      omega
    | succ fuel =>
      by_cases small : n < 2 ^ (width - 1)
      · rw [vbrBits_of_lt small, vbrFuel]
        refine (reads_fixed (by omega)).bind_nil ?_
        rw [if_pos small]
        exact Reads.pure n
      · have remainder : n % 2 ^ (width - 1) < 2 ^ (width - 1) :=
          Nat.mod_lt _ (Nat.two_pow_pos _)
        rw [vbrBits_of_not_lt wide small, List.length_append, length_bitsOfNat] at enough
        rw [vbrBits_of_not_lt wide small, vbrFuel]
        refine (reads_fixed (by omega)).bind ?_
        rw [if_neg (by omega)]
        refine (ih _ (div_group_lt wide small) _ fuel (by omega)).bind_nil ?_
        -- low group plus shifted high groups is the number again
        have rebuilt : n % 2 ^ (width - 1) + 2 ^ (width - 1) - 2 ^ (width - 1) +
            2 ^ (width - 1) * (n / 2 ^ (width - 1)) = n := by
          rw [Nat.add_sub_cancel, Nat.mod_add_div]
        rw [rebuilt]
        exact Reads.pure n

theorem reads_vbr (pos n : Nat) : Reads pos (vbr width) (vbrBits width n) n := by
  intro rest
  exact reads_vbrFuel wide n pos _ (by simp) rest

end Vbr

end Bitstream
