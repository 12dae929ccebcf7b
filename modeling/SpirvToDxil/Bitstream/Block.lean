import SpirvToDxil.Bitstream.Abbrev

/-!
# Blocks

A bitstream is a tree of blocks.  A block starts with its id, the width of the
abbreviation ids inside it and, from a word boundary on, the number of words of
its body; it ends with an end marker padded to a word boundary.  `Encodes` says
which bits stand for which contents.

`readContents` reads contents back in two ways: by descending, where the end
marker tells that a block is over, and by size, where the word count cuts the
body out of the stream and the end marker must be its last word.

Abbreviations have scope: those a block defines end with it, and those defined in
the information block (block 0) are known in every later block they are for.
-/

namespace Bitstream

inductive Contents where
  | nil
  | define (layout : Abbrev) (rest : Contents)
  | unabbrev (code : Nat) (data : List Nat) (rest : Contents)
  | record (id : Nat) (data : List Nat) (rest : Contents)
  | block (blockId width : Nat) (body rest : Contents)
  deriving DecidableEq, Repr

def Contents.height : Contents → Nat
  | nil => 0
  | define _ rest => rest.height
  | unabbrev _ _ rest => rest.height
  | record _ _ rest => rest.height
  | block _ _ body rest => max (body.height + 1) rest.height

/-- How many steps a reader needs for the contents. -/
def Contents.size : Contents → Nat
  | nil => 1
  | define _ rest => rest.size + 1
  | unabbrev _ _ rest => rest.size + 1
  | record _ _ rest => rest.size + 1
  | block _ _ body rest => body.size + rest.size + 1

/-! ## Scopes of abbreviations -/

structure Scope where
  /-- The block being read; outside every block there is none. -/
  blockId : Option Nat
  abbrevs : List Abbrev
  info : List (Nat × Abbrev)
  /-- Inside the information block: the block that definitions are for. -/
  target : Option Nat
  deriving DecidableEq, Repr

namespace Scope

def top : Scope := ⟨none, [], [], none⟩

/-- A block starts with the abbreviations that the information block gave it. -/
def enter (scope : Scope) (id : Nat) : Scope where
  blockId := some id
  abbrevs := (scope.info.filter (·.1 = id)).map (·.2)
  info := scope.info
  target := none

/-- Of a finished block only the registered information remains. -/
def leave (scope inner : Scope) : Scope := { scope with info := inner.info }

def define? (scope : Scope) (layout : Abbrev) : Option Scope :=
  if scope.blockId = some 0 then
    scope.target.map fun id => { scope with info := scope.info ++ [(id, layout)] }
  else some { scope with abbrevs := scope.abbrevs ++ [layout] }

/-- Record 1 of the information block names the block that definitions are for. -/
def unabbrev (scope : Scope) (code : Nat) (data : List Nat) : Scope :=
  if scope.blockId = some 0 ∧ code = 1 then { scope with target := data.head? } else scope

end Scope

/-! ## Encoding -/

def blockHeader (width blockId newWidth : Nat) : List Bool :=
  bitsOfNat width 1 ++ (vbrBits 8 blockId ++ vbrBits 4 newWidth)

/-- The end marker of a block standing at `pos`. -/
def blockEnd (width pos : Nat) : List Bool :=
  bitsOfNat width 0 ++ padding 32 (pos + width)

/-- `bits`, standing at `pos`, are the contents of a block of abbreviation width
`width`, whose scope before and after them is given.  A word count that does not fit
its field is cut to the low 32 bits, like by a writer. -/
inductive Encodes : Scope → Nat → Nat → Contents → List Bool → Scope → Prop where
  | nil {scope width pos} : Encodes scope width pos .nil [] scope
  | define {scope scope' scope'' width pos layout rest bits} :
      scope.define? layout = some scope' →
      Encodes scope' width (pos + width + layout.definitionBits.length) rest bits scope'' →
      Encodes scope width pos (.define layout rest)
        (bitsOfNat width 2 ++ (layout.definitionBits ++ bits)) scope''
  | unabbrev {scope scope' width pos code data rest bits} :
      Encodes (scope.unabbrev code data) width (pos + width + (unabbrevBits code data).length)
        rest bits scope' →
      Encodes scope width pos (.unabbrev code data rest)
        (bitsOfNat width 3 ++ (unabbrevBits code data ++ bits)) scope'
  | record {scope scope' width pos id layout data rest bits} :
      4 ≤ id → id < 2 ^ width → scope.abbrevs[id - 4]? = some layout → layout.Valid →
      Abbrev.Conforms layout.fields layout.array data →
      Encodes scope width
        (pos + width + (Abbrev.recordBits layout.fields layout.array data).length)
        rest bits scope' →
      Encodes scope width pos (.record id data rest)
        (bitsOfNat width id ++ (Abbrev.recordBits layout.fields layout.array data ++ bits)) scope'
  | block {scope inner outer width pos start finish blockId newWidth words body rest bodyBits
        restBits} :
      2 ≤ newWidth →
      -- the body starts on a word boundary behind the word count
      start = pos + (blockHeader width blockId newWidth).length +
        (padding 32 (pos + (blockHeader width blockId newWidth).length)).length + 32 →
      start % 32 = 0 →
      Encodes (scope.enter blockId) newWidth start body bodyBits inner →
      -- and the end marker ends on the boundary that the word count promises
      finish = start + bodyBits.length +
        (blockEnd newWidth (start + bodyBits.length)).length →
      finish = start + 32 * words →
      Encodes (scope.leave inner) width finish rest restBits outer →
      Encodes scope width pos (.block blockId newWidth body rest)
        (blockHeader width blockId newWidth ++
          (padding 32 (pos + (blockHeader width blockId newWidth).length) ++
            (bitsOfNat 32 words ++
              (bodyBits ++ (blockEnd newWidth (start + bodyBits.length) ++ restBits))))) outer

theorem Encodes.block_aligned {scope outer : Scope} {width pos blockId newWidth : Nat}
    {body : Contents} {bits : List Bool}
    (encodes : Encodes scope width pos (.block blockId newWidth body .nil) bits outer) :
    (pos + bits.length) % 32 = 0 := by
  cases encodes with
  | block _ startEq aligned _ finishEq promised restEncodes =>
    cases restEncodes
    simp only [List.length_append, length_bitsOfNat, List.length_nil]
    omega

/-! ## Reading -/

inductive Strategy where
  | descend
  | bySize
  deriving DecidableEq, Repr

def within {α : Type} (words : Nat) (body : Reader α) : Reader α := fun cursor =>
  if 32 * words ≤ cursor.rest.length then
    match body ⟨cursor.pos, cursor.rest.take (32 * words)⟩ with
    | some (value, ⟨_, []⟩) =>
      some (value, ⟨cursor.pos + 32 * words, cursor.rest.drop (32 * words)⟩)
    | _ => none
  else none

def Strategy.body {α : Type} (strategy : Strategy) (words : Nat) (body : Reader α) : Reader α :=
  match strategy with
  | descend => body
  | bySize => within words body

/-- Read a block behind its id: the fields of the header, then the body. -/
def readBody (strategy : Strategy) (contents : Nat → Scope → Reader (Contents × Scope))
    (scope : Scope) : Reader ((Nat × Nat × Contents) × Scope) := do
  let blockId ← vbr 8
  let newWidth ← vbr 4
  alignTo 32
  let words ← fixed 32
  let body ← strategy.body words (contents newWidth (scope.enter blockId))
  pure ((blockId, newWidth, body.1), scope.leave body.2)

/-- Read contents up to the end marker of the block and the padding behind it. -/
def readContents (strategy : Strategy) : Nat → Nat → Scope → Reader (Contents × Scope)
  | 0, _, _ => failure
  | fuel + 1, width, scope => do
    let id ← fixed width
    if id = 0 then do
      alignTo 32
      pure (.nil, scope)
    else if id = 1 then do
      let block ← readBody strategy (readContents strategy fuel) scope
      let rest ← readContents strategy fuel width block.2
      pure (.block block.1.1 block.1.2.1 block.1.2.2 rest.1, rest.2)
    else if id = 2 then do
      let layout ← Abbrev.readDefinition
      match scope.define? layout with
      | none => failure
      | some scope => do
        let rest ← readContents strategy fuel width scope
        pure (.define layout rest.1, rest.2)
    else if id = 3 then do
      let record ← readUnabbrev
      let rest ← readContents strategy fuel width (scope.unabbrev record.1 record.2)
      pure (.unabbrev record.1 record.2 rest.1, rest.2)
    else
      match scope.abbrevs[id - 4]? with
      | none => failure
      | some layout => do
        let data ← layout.readRecord
        let rest ← readContents strategy fuel width scope
        pure (.record id data rest.1, rest.2)

def readBlock (strategy : Strategy) (fuel width : Nat) (scope : Scope) :
    Reader (Contents × Scope) := do
  let id ← fixed width
  guardRead (id = 1)
  let block ← readBody strategy (readContents strategy fuel) scope
  pure (.block block.1.1 block.1.2.1 block.1.2.2 .nil, block.2)

theorem reads_within {α : Type} {pos words : Nat} {body : Reader α} {bits : List Bool} {value : α}
    (reads : Reads pos body bits value) (length : bits.length = 32 * words) :
    Reads pos (within words body) bits value := by
  intro rest
  have cut : (bits ++ rest).take (32 * words) = bits ++ [] := by
    rw [← length, List.take_left, List.append_nil]
  have behind : (bits ++ rest).drop (32 * words) = rest := by
    rw [← length, List.drop_left]
  simp only [within, cut, behind, reads []]
  rw [if_pos (by simp [length]), length]

/-- How long a stream may be for a strategy: by size, word counts must not be cut. -/
def Strategy.Allows : Strategy → Nat → Prop
  | descend, _ => True
  | bySize, length => length < 32 * 2 ^ 32

theorem Strategy.Allows.mono {strategy : Strategy} {length length' : Nat}
    (allows : strategy.Allows length) (shorter : length' ≤ length) : strategy.Allows length' := by
  cases strategy with
  | descend => trivial
  | bySize => exact shorter.trans_lt allows

theorem Strategy.reads_body {α : Type} {strategy : Strategy} {pos words : Nat} {body : Reader α}
    {bits : List Bool} {value : α} (reads : Reads pos body bits value)
    (length : bits.length = 32 * words) (allows : strategy.Allows bits.length) :
    Reads pos (strategy.body (words % 2 ^ 32) body) bits value := by
  cases strategy with
  | descend => exact reads
  | bySize =>
    simp only [Allows] at allows
    rw [Nat.mod_eq_of_lt (by omega)]
    exact reads_within reads length

theorem reads_blockEnd {strategy : Strategy} {fuel width pos : Nat} {scope : Scope} :
    Reads pos (readContents strategy (fuel + 1) width scope) (blockEnd width pos)
      (.nil, scope) := by
  refine (reads_fixed (Nat.two_pow_pos width)).bind ?_
  rw [length_bitsOfNat]
  exact (reads_alignTo (pos + width) 32).bind_nil (Reads.pure _)

/-- A block is read behind its id as soon as its body is read inside it. -/
theorem reads_readBody {strategy : Strategy} {contents : Nat → Scope → Reader (Contents × Scope)}
    {scope inner : Scope} {width pos start blockId newWidth words : Nat} {body : Contents}
    {bodyBits : List Bool}
    (startEq : start = pos + (blockHeader width blockId newWidth).length +
      (padding 32 (pos + (blockHeader width blockId newWidth).length)).length + 32)
    (length : (bodyBits ++ blockEnd newWidth (start + bodyBits.length)).length = 32 * words)
    (allows : strategy.Allows (32 * words))
    (bodyReads : Reads start (contents newWidth (scope.enter blockId))
      (bodyBits ++ blockEnd newWidth (start + bodyBits.length)) (body, inner)) :
    Reads (pos + width) (readBody strategy contents scope)
      (vbrBits 8 blockId ++ (vbrBits 4 newWidth ++
        (padding 32 (pos + (blockHeader width blockId newWidth).length) ++
          (bitsOfNat 32 words ++ (bodyBits ++ blockEnd newWidth (start + bodyBits.length))))))
      ((blockId, newWidth, body), scope.leave inner) := by
  refine (reads_vbr (by decide) _ blockId).bind ?_
  refine (reads_vbr (by decide) _ newWidth).bind ?_
  have headerEnd : pos + width + (vbrBits 8 blockId).length + (vbrBits 4 newWidth).length =
      pos + (blockHeader width blockId newWidth).length := by
    simp [blockHeader, Nat.add_assoc]
  rw [headerEnd]
  refine (reads_alignTo _ 32).bind ?_
  rw [← bitsOfNat_mod]
  refine (reads_fixed (Nat.mod_lt words (Nat.two_pow_pos 32))).bind ?_
  rw [length_bitsOfNat, ← startEq]
  exact (Strategy.reads_body bodyReads length (length ▸ allows)).bind_nil (Reads.pure _)

/-- The ids of the bitstream itself fit every width of at least two bits. -/
theorem reserved_lt {id width : Nat} (wide : 2 ≤ width) (below : id < 4) : id < 2 ^ width :=
  calc id < 2 ^ 2 := below
    _ ≤ 2 ^ width := Nat.pow_le_pow_right (by decide) wide

/-- Both strategies read encoded contents, and the end marker behind them, as the
contents they encode. -/
theorem reads_readContents {strategy : Strategy} {scope scope' : Scope} {width pos : Nat}
    {contents : Contents} {bits : List Bool} (wide : 2 ≤ width)
    (encodes : Encodes scope width pos contents bits scope')
    (allows : strategy.Allows bits.length) :
    ∀ {fuel : Nat}, contents.size ≤ fuel →
      Reads pos (readContents strategy fuel width scope)
        (bits ++ blockEnd width (pos + bits.length)) (contents, scope') := by
  induction encodes with
  | nil =>
    intro fuel enough
    cases fuel with
    | zero => simp [Contents.size] at enough
    | succ fuel => simpa using reads_blockEnd
  | @define scope scope' scope'' width pos layout rest bits defined _ ih =>
    intro fuel enough
    cases fuel with
    | zero => simp [Contents.size] at enough
    | succ fuel =>
      simp only [List.append_assoc]
      refine (reads_fixed (reserved_lt wide (by decide))).bind ?_
      refine (layout.reads_readDefinition _).bind ?_
      simp only [defined]
      have next := @ih wide (allows.mono (by simp; omega)) fuel
        (by simp [Contents.size] at enough; omega)
      refine Reads.bind_nil (a := (rest, scope'')) ?_ (Reads.pure _)
      simpa [Nat.add_assoc] using next
  | @unabbrev scope scope' width pos code data rest bits _ ih =>
    intro fuel enough
    cases fuel with
    | zero => simp [Contents.size] at enough
    | succ fuel =>
      simp only [List.append_assoc]
      refine (reads_fixed (reserved_lt wide (by decide))).bind ?_
      refine (reads_readUnabbrev code data _).bind ?_
      have next := @ih wide (allows.mono (by simp; omega)) fuel
        (by simp [Contents.size] at enough; omega)
      refine Reads.bind_nil (a := (rest, scope')) ?_ (Reads.pure _)
      simpa [Nat.add_assoc] using next
  | @record scope scope' width pos id layout data rest bits application fits found valid conforms
      _ ih =>
    intro fuel enough
    cases fuel with
    | zero => simp [Contents.size] at enough
    | succ fuel =>
      simp only [List.append_assoc]
      refine (reads_fixed fits).bind ?_
      rw [if_neg (by omega), if_neg (by omega), if_neg (by omega), if_neg (by omega)]
      simp only [found]
      refine (Abbrev.reads_readRecord valid conforms _).bind ?_
      have next := @ih wide (allows.mono (by simp; omega)) fuel
        (by simp [Contents.size] at enough; omega)
      refine Reads.bind_nil (a := (rest, scope')) ?_ (Reads.pure _)
      simpa [Nat.add_assoc] using next
  | @block scope inner outer width pos start finish blockId newWidth words body rest bodyBits
      restBits newWide startEq aligned _ finishEq promised _ ihBody ihRest =>
    intro fuel enough
    cases fuel with
    | zero => simp [Contents.size] at enough
    | succ fuel =>
      simp only [Contents.size] at enough
      have bodyLength : (bodyBits ++ blockEnd newWidth (start + bodyBits.length)).length =
          32 * words := by
        rw [List.length_append]
        omega
      have total := bodyLength
      simp only [List.length_append] at total
      have bodyRead := @ihBody newWide (allows.mono (by simp; omega)) fuel (by omega)
      have restRead := @ihRest wide (allows.mono (by simp; omega)) fuel (by omega)
      have behind : pos + (blockHeader width blockId newWidth ++
          (padding 32 (pos + (blockHeader width blockId newWidth).length) ++
            (bitsOfNat 32 words ++ (bodyBits ++ (blockEnd newWidth (start + bodyBits.length) ++
              restBits))))).length = finish + restBits.length := by
        simp only [List.length_append, length_bitsOfNat]
        omega
      rw [behind]
      have blockRead := reads_readBody startEq bodyLength
        (allows.mono (by simp only [List.length_append]; omega)) bodyRead
      have grouped : blockHeader width blockId newWidth ++
          (padding 32 (pos + (blockHeader width blockId newWidth).length) ++
            (bitsOfNat 32 words ++ (bodyBits ++ (blockEnd newWidth (start + bodyBits.length) ++
              restBits)))) ++ blockEnd width (finish + restBits.length) =
          bitsOfNat width 1 ++ ((vbrBits 8 blockId ++ (vbrBits 4 newWidth ++
            (padding 32 (pos + (blockHeader width blockId newWidth).length) ++
              (bitsOfNat 32 words ++ (bodyBits ++
                blockEnd newWidth (start + bodyBits.length)))))) ++
            (restBits ++ blockEnd width (finish + restBits.length))) := by
        simp only [blockHeader, List.append_assoc]
      rw [grouped]
      refine (reads_fixed (reserved_lt wide (by decide))).bind ?_
      rw [length_bitsOfNat]
      refine blockRead.bind ?_
      have blockFinish : pos + width + (vbrBits 8 blockId ++ (vbrBits 4 newWidth ++
          (padding 32 (pos + (blockHeader width blockId newWidth).length) ++
            (bitsOfNat 32 words ++ (bodyBits ++
              blockEnd newWidth (start + bodyBits.length)))))).length = finish := by
        simp only [blockHeader, List.length_append, length_bitsOfNat] at startEq bodyLength ⊢
        omega
      rw [blockFinish]
      exact restRead.bind_nil (Reads.pure _)

theorem reads_readBlock {strategy : Strategy} {scope outer : Scope}
    {width pos blockId newWidth fuel : Nat} {body : Contents} {bits : List Bool} (wide : 2 ≤ width)
    (encodes : Encodes scope width pos (.block blockId newWidth body .nil) bits outer)
    (allows : strategy.Allows bits.length) (enough : body.size ≤ fuel) :
    Reads pos (readBlock strategy fuel width scope) bits
      (.block blockId newWidth body .nil, outer) := by
  cases encodes with
  | @block _ inner _ _ _ start finish _ _ words _ _ bodyBits _ newWide startEq aligned bodyEncodes
      finishEq promised restEncodes =>
    cases restEncodes
    have bodyLength : (bodyBits ++ blockEnd newWidth (start + bodyBits.length)).length =
        32 * words := by
      rw [List.length_append]
      omega
    have total := bodyLength
    simp only [List.length_append] at total
    have bodyRead := reads_readContents newWide bodyEncodes (allows.mono (by simp; omega)) enough
    have blockRead := reads_readBody startEq bodyLength
      (allows.mono (by simp only [List.length_append]; omega)) bodyRead
    simp only [blockHeader, List.append_assoc, List.append_nil] at blockRead ⊢
    refine (reads_fixed (reserved_lt wide (by decide))).bind ((reads_guardRead rfl).nil_bind ?_)
    rw [length_bitsOfNat]
    exact blockRead.bind_nil (Reads.pure _)

end Bitstream
