import VariabilityTestbed.Translate.InsnLoop
import VariabilityTestbed.Variability.InsnMap

/-!
# The names of instructions

The decoders hand the name of the instruction they have found to `variability_counters_manip`. It
charges the block, and returns the index of the name in `insn_map`. Most of the calls store the
index in `tb->insn_under_exec`. Some drop it, one branch stores a sentinel, and many branches make
no call at all.

## The decoders

`disas_arm_insn`, `disas_thumb2_insn` and `disas_thumb_insn` are followed as far as it takes to find
the branch that an instruction gets to: `armOp`, `thumb2Op` and `thumbOp`. Where a branch ends in a
decoder of its own, for NEON or a coprocessor, nothing is recorded whether it accepts the
instruction or not.

What is recorded in each branch is in `ArmOp.notes`, `Thumb2Op.notes` and `ThumbOp.notes`. A branch
with a loop over a list of registers records its name once for each register.
-/

namespace VariabilityTestbed.Translate

open Variability List

/-! ### What is done with a name -/

/-- What a decoder does with a name. -/
inductive Note where
  /-- `s->tb->insn_under_exec = variability_counters_manip(s->tb, name)`. -/
  | record (name : String)
  /-- `variability_counters_manip(s->tb, name)`. -/
  | charge (name : String)
  /-- `s->tb->insn_under_exec = MAX_INSTRUCTIONS`. -/
  | sentinel
  deriving DecidableEq, Repr

/-- The name that a block is charged for. -/
def Note.name? : Note → Option String
  | .record name => some name
  | .charge name => some name
  | .sentinel => none

@[simp] theorem Note.name?_record (name : String) : (Note.record name).name? = some name := rfl

@[simp] theorem Note.name?_charge (name : String) : (Note.charge name).name? = some name := rfl

/-- A note in a block with the counters and the index of `tb`. -/
def Note.perform (insnMap : Option InsnMap) (tb : ClassArray × UInt16) :
    Note → Option (ClassArray × UInt16)
  | .record name => variabilityCountersManip insnMap tb.1 name
  | .charge name => (variabilityCountersManip insnMap tb.1 name).map fun r => (r.1, tb.2)
  | .sentinel => some (tb.1, MAX_INSTRUCTIONS)

/-- Notes, in order. -/
def performNotes (insnMap : Option InsnMap) :
    ClassArray × UInt16 → List Note → Option (ClassArray × UInt16)
  | tb, [] => some tb
  | tb, n :: notes => (n.perform insnMap tb).bind fun tb => performNotes insnMap tb notes

/-- Notes charge a block for their names. -/
theorem map_fst_performNotes (insnMap : Option InsnMap) (tb : ClassArray × UInt16)
    (notes : List Note) :
    (performNotes insnMap tb notes).map Prod.fst = charge insnMap tb.1
      (notes.filterMap Note.name?) := by
  induction notes generalizing tb with
  | nil => rfl
  | cons n notes ih =>
    rw [performNotes, Option.map_bind]
    cases n with
    | record name =>
      rw [filterMap_cons_some (Note.name?_record name), charge]
      exact congrArg _ (funext fun tb => ih tb)
    | charge name =>
      rw [filterMap_cons_some (Note.name?_charge name), Variability.charge, Note.perform,
        Option.bind_map]
      exact congrArg _ (funext fun r => ih (r.1, tb.2))
    | sentinel => exact ih (tb.1, MAX_INSTRUCTIONS)

/-! ### Instruction words -/

/-- The features of the CPU that decide what is recorded. -/
inductive ArmFeature where
  | V4T | V5 | V6 | V6K | V7 | THUMB2 | M | DIV
  deriving DecidableEq, Repr

/-- `insn & (1 << n)`. -/
def insnBit (insn n : UInt32) : Bool := insn &&& (1 <<< n) != 0

/-- `(insn >> shift) & mask`. -/
def insnField (insn shift mask : UInt32) : ℕ := (insn >>> shift &&& mask).toNat

/-- The number of registers in a list of `n`. -/
def regCount (insn : UInt32) (n : ℕ) : ℕ := (List.range n).countP fun i => insnBit insn i.toUInt32

/-! ### ARM -/

/-- The branches of `disas_arm_insn`. -/
inductive ArmOp where
  | illegal | neon | hint | setend | clrex | barrier | srs | rfe | blxOffset | cps | movw | movt
  | msr | mrs | bx | clz | blxReg | qadd | qsub | qdadd | qdsub | bkpt | signedMul | and | eor | sub
  | rsb | add | adc | sbc | rsc | tst | teq | cmp | cmn | orr | mov | bic | mvn | mul | umaal | mull
  | ldrex | ldrexd | ldrexb | ldrexh | strex | strexd | strexb | strexh | swp | ldrh | ldrsb | ldrsh
  | strd | ldrd | strh | parallelAddSub | pkhtb | pkhbt | usat | ssat | usat16 | ssat16 | sel
  | sxtb16 | sxtb | sxth | uxtb16 | uxtb | uxth | revsh | rbit | rev16 | rev | smmul | smlald
  | smuad | usad8 | bfi | ubfx | sbfx
  /-- A bit field of 32 bits. -/
  | wholeField
  | ldrb | ldr | strb | str | ldm | stm | branch | coprocessor | swi
  deriving DecidableEq

section Arm

variable (feature : ArmFeature → Bool) (user : Bool) (insn : UInt32)

/-- The branches for the condition `0xf`. -/
def armUnconditional : ArmOp :=
  if !feature .V5 then .illegal
  else if insnField insn 25 7 = 1 then .neon
  else if insn &&& 0x0f100000 = 0x04000000 then .neon
  else if insn &&& 0x0f30f000 = 0x0510f000 ∨ insn &&& 0x0f30f010 = 0x0710f000 then .hint
  else if insn &&& 0x0f70f000 = 0x0450f000 ∨ insn &&& 0x0f70f010 = 0x0650f000 then .hint
  else if insn &&& 0x0f700000 = 0x04100000 ∨ insn &&& 0x0f700010 = 0x06100000 then .hint
  else if insn &&& 0x0ffffdff = 0x01010000 then
    if !feature .V6 || insnBit insn 9 then .illegal else .setend
  else if insn &&& 0x0fffff00 = 0x057ff000 then
    match insnField insn 4 0xf with
    | 1 => if feature .V6K then .clrex else .illegal
    | 4 | 5 | 6 => if feature .V7 then .barrier else .illegal
    | _ => .illegal
  else if insn &&& 0x0e5fffe0 = 0x084d0500 then if user || !feature .V6 then .illegal else .srs
  else if insn &&& 0x0e50ffe0 = 0x08100a00 then if user || !feature .V6 then .illegal else .rfe
  else if insn &&& 0x0e000000 = 0x0a000000 then .blxOffset
  else if insn &&& 0x0e000f00 = 0x0c000100 then .coprocessor
  else if insn &&& 0x0fe00000 = 0x0c400000 then .illegal
  else if insn &&& 0x0f000010 = 0x0e000010 then .illegal
  else if insn &&& 0x0ff10020 = 0x01000000 then .cps
  else .illegal

/-- `movw`, `movt` and writes of an immediate to a status register. -/
def armWideImmediate : ArmOp :=
  if !insnBit insn 21 then
    if !feature .THUMB2 then .illegal else if !insnBit insn 22 then .movw else .movt
  else if insnField insn 12 0xf ≠ 0xf then .illegal
  else if insnField insn 16 0xf = 0 then .hint
  else if insnBit insn 22 && user then .illegal
  else .msr

/-- Miscellaneous instructions. -/
def armMiscellaneous : ArmOp :=
  let op1 := insnField insn 21 3
  match insnField insn 4 0xf with
  | 0x0 =>
    if insnBit insn 22 && user then .illegal else if insnBit insn 21 then .msr else .mrs
  | 0x1 =>
    if op1 = 1 then if feature .V4T then .bx else .illegal
    else if op1 = 3 then if feature .V5 then .clz else .illegal
    else .illegal
  -- `bxj` needs an architecture that is never enabled
  | 0x2 => .illegal
  | 0x3 => if op1 = 1 ∧ feature .V5 then .blxReg else .illegal
  | 0x5 =>
    if !feature .V5 then .illegal
    else if insnBit insn 22 then if insnBit insn 21 then .qdsub else .qdadd
    else if insnBit insn 21 then .qsub else .qadd
  | 0x7 => if op1 = 1 ∧ feature .V5 then .bkpt else .illegal
  | 0x8 | 0xa | 0xc | 0xe => if feature .V5 then .signedMul else .illegal
  | _ => .illegal

/-- Data processing. Returns from an exception are illegal in user mode. -/
def armDataProcessing : ArmOp :=
  let exceptionReturn := insnBit insn 20 && insnField insn 12 0xf = 15
  match insnField insn 21 0xf with
  | 0x0 => .and
  | 0x1 => .eor
  | 0x2 => if exceptionReturn && user then .illegal else .sub
  | 0x3 => .rsb
  | 0x4 => .add
  | 0x5 => .adc
  | 0x6 => .sbc
  | 0x7 => .rsc
  | 0x8 => .tst
  | 0x9 => .teq
  | 0xa => .cmp
  | 0xb => .cmn
  | 0xc => .orr
  | 0xd => if exceptionReturn && user then .illegal else .mov
  | 0xe => .bic
  | _ => .mvn

/-- Multiplies. -/
def armMultiply : ArmOp :=
  match insnField insn 20 0xf with
  | 0 | 1 | 2 | 3 => .mul
  | 6 => if feature .THUMB2 then .mul else .illegal
  | 4 => if feature .V6 then .umaal else .illegal
  | 8 | 9 | 10 | 11 | 12 | 13 | 14 | 15 => .mull
  | _ => .illegal

/-- Loads and stores exclusive, and `swp`. -/
def armExclusive : ArmOp :=
  if insnBit insn 23 then
    let op1 := insnField insn 21 3
    if op1 ≠ 0 ∧ !feature .V6K then .illegal
    else if op1 = 0 ∧ !feature .V6 then .illegal
    else if insnBit insn 20 then
      match op1 with
      | 0 => .ldrex
      | 1 => .ldrexd
      | 2 => .ldrexb
      | _ => .ldrexh
    else
      match op1 with
      | 0 => .strex
      | 1 => .strexd
      | 2 => .strexb
      | _ => .strexh
  else .swp

/-- Loads and stores of halfwords and doublewords. -/
def armExtraLoadStore : ArmOp :=
  if insnBit insn 20 then
    match insnField insn 5 3 with
    | 1 => .ldrh
    | 2 => .ldrsb
    | _ => .ldrsh
  else if insnBit insn 6 then
    if !feature .V5 then .illegal else if insnBit insn 5 then .strd else .ldrd
  else .strh

/-- Packing, saturation, extension and reversal. -/
def armMediaMisc : ArmOp :=
  if insn &&& 0x00700020 = 0 then if insnBit insn 6 then .pkhtb else .pkhbt
  else if insn &&& 0x00200020 = 0x00200000 then if insnBit insn 22 then .usat else .ssat
  else if insn &&& 0x00300fe0 = 0x00200f20 then if insnBit insn 22 then .usat16 else .ssat16
  else if insn &&& 0x00700fe0 = 0x00000fa0 then .sel
  else if insn &&& 0x000003e0 = 0x00000060 then
    match insnField insn 20 7 with
    | 0 => .sxtb16
    | 2 => .sxtb
    | 3 => .sxth
    | 4 => .uxtb16
    | 6 => .uxtb
    | 7 => .uxth
    | _ => .illegal
  else if insn &&& 0x003f0f60 = 0x003f0f20 then
    if insnBit insn 22 then
      if insnBit insn 7 then .revsh else if feature .THUMB2 then .rbit else .illegal
    else if insnBit insn 7 then .rev16 else .rev
  else .illegal

/-- Sums of absolute differences, and bit fields. -/
def armBitField : ArmOp :=
  let shift := insn >>> 7 &&& 0x1f
  let width := (insn >>> 16 &&& 0x1f) + 1
  match insnField insn 17 0x38 ||| insnField insn 5 7 with
  | 0 => .usad8
  | 0x20 | 0x24 | 0x28 | 0x2c =>
    if !feature .THUMB2 then .illegal else if width - shift ≠ 32 then .bfi else .wholeField
  | 0x12 | 0x16 | 0x1a | 0x1e =>
    if !feature .THUMB2 ∨ shift + width > 32 then .illegal
    else if width < 32 then .sbfx else .wholeField
  | 0x32 | 0x36 | 0x3a | 0x3e =>
    if !feature .THUMB2 ∨ shift + width > 32 then .illegal
    else if width < 32 then .ubfx else .wholeField
  | _ => .illegal

/-- Media instructions. -/
def armMedia : ArmOp :=
  if !feature .V6 then .illegal
  else
    match insnField insn 23 3 with
    | 0 =>
      if insnField insn 20 3 = 0 ∨ insnField insn 5 7 = 5 ∨ insnField insn 5 7 = 6 then .illegal
      else .parallelAddSub
    | 1 => armMediaMisc feature insn
    | 2 => if insnBit insn 20 then .smmul else if insnBit insn 22 then .smlald else .smuad
    | _ => armBitField feature insn

/-- Loads and stores of bytes and words. -/
def armLoadStore : ArmOp :=
  if insnField insn 24 0xf = 7 ∧ insn &&& 0x00f000f0 = 0x00f000f0 then .illegal
  else if insnBit insn 20 then if insnBit insn 22 then .ldrb else .ldr
  else if insnBit insn 22 then .strb else .str

/-- Loads and stores of several registers. -/
def armMultiple : ArmOp :=
  if insnBit insn 22 && user then .illegal else if insnBit insn 20 then .ldm else .stm

/-- The other instructions. -/
def armOther : ArmOp :=
  match insnField insn 24 0xf with
  | 0x0 => if insnField insn 5 3 = 0 then armMultiply feature insn
      else armExtraLoadStore feature insn
  | 0x1 => if insnField insn 5 3 = 0 then armExclusive feature insn
      else armExtraLoadStore feature insn
  | 0x4 | 0x5 => armLoadStore insn
  | 0x6 | 0x7 => if insnBit insn 4 then armMedia feature insn else armLoadStore insn
  | 0x8 | 0x9 => armMultiple user insn
  | 0xa | 0xb => .branch
  | 0xc | 0xd | 0xe => .coprocessor
  | 0xf => .swi
  | _ => .illegal

/-- The branch of `disas_arm_insn` that an instruction gets to. -/
def armOp : ArmOp :=
  if feature .M then .illegal
  else if insn >>> 28 = 0xf then armUnconditional feature user insn
  else if insn &&& 0x0f900000 = 0x03000000 then armWideImmediate feature user insn
  else if insn &&& 0x0f900000 = 0x01000000 ∧ insn &&& 0x90 ≠ 0x90 then
    armMiscellaneous feature user insn
  else if (insn &&& 0x0e000000 = 0 ∧ insn &&& 0x90 ≠ 0x90) ∨ insn &&& 0x0e000000 = 0x02000000 then
    armDataProcessing user insn
  else armOther feature user insn

end Arm

/-- What is recorded in each branch. -/
def ArmOp.notes : ArmOp → List Note
  | .clrex => [.record "CLREX"]
  | .srs => [.record "SRS"]
  | .rfe => [.sentinel, .charge "RFE"]
  | .blxOffset | .bx => [.record "BX"]
  | .movw => [.record "MOVW"]
  | .movt => [.record "MOVT"]
  | .clz => [.record "CLZ"]
  | .blxReg => [.record "BLX_reg"]
  | .qadd => [.record "QADD"]
  | .qsub => [.record "QSUB"]
  | .qdadd => [.record "QDADD", .record "QADD"]
  | .qdsub => [.record "QDADD", .record "QSUB"]
  | .bkpt => [.record "BKPT"]
  | .and | .tst => [.record "AND_reg"]
  | .eor | .teq => [.record "EOR_reg"]
  | .sub | .rsb | .cmp => [.record "SUB_reg"]
  | .add | .cmn => [.record "ADD_reg"]
  | .adc => [.record "ADC_reg"]
  | .sbc | .rsc => [.record "SBC_reg"]
  | .orr => [.record "ORR_reg"]
  | .ldrex | .ldrexd => [.record "LDREX"]
  | .ldrexb => [.record "LDREXB"]
  | .ldrexh => [.record "LDREXH"]
  | .strex | .strexd => [.record "STREX"]
  | .strexb => [.record "STREXB"]
  | .strexh => [.record "STREXH"]
  | .ldrh => [.record "LDRH_reg"]
  | .ldrsb => [.record "LDRSB_reg"]
  | .ldrsh => [.record "LDRSH_reg"]
  | .strd | .strh | .str => [.record "STR_reg"]
  | .ldrd | .ldr => [.record "LDR_reg"]
  | .pkhtb => [.record "PKHTB"]
  | .pkhbt => [.record "PKHBT"]
  | .usat => [.record "USAT"]
  | .ssat => [.record "SSAT"]
  | .usat16 => [.record "USAT16"]
  | .ssat16 => [.record "SSAT16"]
  | .sxtb16 => [.record "SXTB16"]
  | .sxtb => [.record "SXTB"]
  | .sxth => [.record "SXTH"]
  | .uxtb16 => [.record "UXTB16"]
  | .uxtb => [.record "UXTB"]
  | .uxth => [.record "UXTH"]
  | .revsh => [.record "REVSH"]
  | .rbit => [.record "RBIT"]
  | .rev16 => [.record "REV16"]
  | .smmul => [.record "SMULL"]
  | .smlald => [.record "SMLALD"]
  | .bfi => [.record "BFI"]
  | .ubfx => [.record "UBFX"]
  | .sbfx => [.record "SBFX"]
  | .ldrb => [.record "LDRB_reg"]
  | .strb => [.record "STRB_reg"]
  | .ldm => [.record "LDRM"]
  | .stm => [.record "STM"]
  | .branch => [.record "BL"]
  | .swi => [.charge "SWI"]
  | _ => []

/-- The branches that have a name. -/
def ArmOp.named : ArmOp → Bool
  | .illegal | .neon | .hint | .setend | .barrier | .rfe | .cps | .msr | .mrs | .signedMul
      | .mov | .bic | .mvn
  | .mul | .umaal | .mull | .swp | .parallelAddSub | .sel | .rev | .smuad | .usad8 | .wholeField
      | .coprocessor
  | .swi => false
  | _ => true

/-- How often a branch records its name. -/
def ArmOp.times (insn : UInt32) : ArmOp → ℕ
  | .ldm | .stm => regCount insn 16
  | _ => 1

/-! ### Thumb-2 -/

/-- The branches of `disas_thumb2_insn`. -/
inductive Thumb2Op where
  | illegal | blxSecondHalf | blSecondHalf | blFirstHalf | ldrd | strd | ldrex | strex | tbh | tbb
  | ldrexb | strexb | rfe | srs | ldm | stm | pkhtb | pkhbt | and | bic | orr | orn | eor | add
  | adc | sbc | sub | rsb | shiftReg | sxth | uxth | sxtb16 | uxtb16 | sxtb | uxtb | parallelAddSub
  | saturating | rbit | rev | rev16 | revsh | sel | clz | multiply | udiv | sdiv | multiplyLong
  | umaal | coprocessor | b | blx
  /-- `msr` of the M profile. -/
  | v7mMsr
  | msr
  /-- `cps` or a hint, in user mode. -/
  | userNop
  | cps | clrex | barrier | bxj | exceptionReturn | mrs | condBranch | sbfx | ubfx | bfi
  /-- A bit field of 32 bits. -/
  | wholeField
  | usat | ssat | movt | movw
  /-- An immediate added to the program counter. -/
  | adr
  | subImm | addImm | neon | hint | ldrb | ldrsb | ldrh | ldrsh | ldr | strb | strh | str
  deriving DecidableEq

section Thumb2

variable (feature : ArmFeature → Bool) (user : Bool) (insn : UInt32)

/-- Loads and stores of doublewords, loads and stores exclusive, and table branches. The name of a
load or store of a doubleword is recorded before its base register is checked. -/
def thumb2OtherLoadStore : Thumb2Op :=
  if insn &&& 0x01200000 ≠ 0 then if insnBit insn 20 then .ldrd else .strd
  else if !insnBit insn 23 then if insnBit insn 20 then .ldrex else .strex
  else if !insnBit insn 6 then if insnBit insn 4 then .tbh else .tbb
  else if !feature .V7 ∨ insnField insn 4 3 = 2 then .illegal
  else if insnBit insn 20 then .ldrexb else .strexb

/-- Loads and stores of several registers, `rfe` and `srs`. The names are recorded before the base
register is checked. -/
def thumb2Multiple : Thumb2Op :=
  if insnField insn 23 1 = insnField insn 24 1 then
    if user then .illegal else if insnBit insn 20 then .rfe else .srs
  else if insnBit insn 20 then .ldm else .stm

/-- `gen_thumb2_data_op`. -/
def genThumb2DataOp (op : ℕ) : Thumb2Op :=
  match op with
  | 0 => .and
  | 1 => .bic
  | 2 => .orr
  | 3 => .orn
  | 4 => .eor
  | 8 => .add
  | 10 => .adc
  | 11 => .sbc
  | 13 => .sub
  | 14 => .rsb
  | _ => .illegal

/-- Data processing with a shifted register. -/
def thumb2ShiftedData : Thumb2Op :=
  if insnField insn 21 0xf = 6 then if insnBit insn 5 then .pkhtb else .pkhbt
  else genThumb2DataOp (insnField insn 21 0xf)

/-- Other data processing. -/
def thumb2OtherData : Thumb2Op :=
  match insnField insn 17 0x38 ||| insnField insn 4 7 with
  | 0 | 1 | 2 | 3 => .saturating
  | 0x0a => .rbit
  | 0x08 => .rev
  | 0x09 => .rev16
  | 0x0b => .revsh
  | 0x10 => .sel
  | 0x18 => .clz
  | _ => .illegal

/-- Long multiplies and divisions. -/
def thumb2LongMultiply : Thumb2Op :=
  let op := (insn >>> 4 &&& (0xf : UInt32)) ||| (insn >>> 16 &&& (0x70 : UInt32))
  if op &&& 0x50 = 0x10 then
    if !feature .DIV then .illegal else if op &&& 0x20 ≠ 0 then .udiv else .sdiv
  else if op &&& 0xe = 0xc then .multiplyLong
  else if op &&& 4 ≠ 0 then .umaal else .multiplyLong

/-- Miscellaneous data processing. -/
def thumb2MiscData : Thumb2Op :=
  let op := insnField insn 22 6 ||| insnField insn 7 1
  if op < 4 ∧ insn &&& 0xf000 ≠ 0xf000 then .illegal
  else
    match op with
    | 0 => if insn &&& 0x70 ≠ 0 then .illegal else .shiftReg
    | 1 =>
      match insnField insn 20 7 with
      | 0 => .sxth
      | 1 => .uxth
      | 2 => .sxtb16
      | 3 => .uxtb16
      | 4 => .sxtb
      | 5 => .uxtb
      | _ => .illegal
    | 2 => if insnField insn 20 3 = 3 ∨ insnField insn 4 3 = 3 then .illegal else .parallelAddSub
    | 3 => thumb2OtherData insn
    | 4 | 5 => .multiply
    | _ => thumb2LongMultiply feature insn

/-- Branches and control. -/
def thumb2Control : Thumb2Op :=
  if insn &&& 0x5000 ≠ 0 then if insnBit insn 12 then .b else .blx
  else if insnField insn 23 7 = 7 then
    if insnBit insn 13 || insnBit insn 26 then .illegal
    else
      match insnField insn 20 7 with
      | 0 => if feature .M then .v7mMsr else .msr
      | 1 => if feature .M || user then .illegal else .msr
      | 2 => if user then .userNop else .cps
      | 3 =>
        if !feature .V7 then .illegal
        else
          match insnField insn 4 0xf with
          | 2 => .clrex
          | 4 | 5 | 6 => .barrier
          | _ => .illegal
      | 4 => .bxj
      | 5 =>
        if user ∨ insnField insn 16 0xf ≠ 14 ∨ insnField insn 8 0xf ≠ 15 then .illegal
        else .exceptionReturn
      | 6 => .mrs
      | _ => if user || feature .M then .illegal else .mrs
  else .condBranch

/-- Bit fields and saturation. -/
def thumb2BitField : Thumb2Op :=
  let imm := insn &&& 0x1f
  let shift := (insn >>> 6 &&& (3 : UInt32)) ||| (insn >>> 10 &&& (0x1c : UInt32))
  if insnBit insn 20 then .illegal
  else
    match insnField insn 21 7 with
    | 2 => if shift + (imm + 1) > 32 then .illegal else if imm + 1 < 32 then .sbfx else .wholeField
    | 6 => if shift + (imm + 1) > 32 then .illegal else .ubfx
    | 3 => if imm < shift then .illegal else if imm + 1 - shift ≠ 32 then .bfi else .wholeField
    | 7 => .illegal
    | _ => if insnBit insn 23 then .usat else .ssat

/-- Data processing with an immediate. -/
def thumb2Immediate : Thumb2Op :=
  if !insnBit insn 25 then genThumb2DataOp (insnField insn 21 0xf)
  else if insnBit insn 24 then thumb2BitField insn
  else if insnBit insn 22 then if insnBit insn 23 then .movt else .movw
  else if insnField insn 16 0xf = 15 then .adr
  else if insnBit insn 23 then .subImm else .addImm

/-- Loads whose target is the program counter, unless they are of words: hints. -/
def thumb2MemoryHint : Thumb2Op :=
  if !insnBit insn 20 || insnBit insn 22 then .illegal
  else if insnField insn 16 0xf = 15 then .hint
  else if insnBit insn 23 then .hint
  else if insnField insn 6 0x3f = 0 ∨ insnField insn 6 0x3c = 0x30 then .hint
  else .illegal

/-- The addressing modes of loads and stores of one register. -/
def thumb2AddressingMode : Bool :=
  insnField insn 16 0xf = 15 || insnBit insn 23 ||
    match insnField insn 8 0xf with
    | 0x0 => insnField insn 4 0xf ≤ 3
    | 0x9 | 0xb | 0xc | 0xd | 0xe | 0xf => true
    | _ => false

/-- Loads and stores of one register. -/
def thumb2LoadStore : Thumb2Op :=
  let op := insnField insn 21 3 ||| insnField insn 22 4
  if insn &&& 0x01100000 = 0x01000000 then .neon
  else if insnField insn 12 0xf = 15 ∧ (!insnBit insn 20 ∨ op ≠ 2) then thumb2MemoryHint insn
  else if !thumb2AddressingMode insn then .illegal
  else if insnBit insn 20 then
    match op with
    | 0 => .ldrb
    | 4 => .ldrsb
    | 1 => .ldrh
    | 5 => .ldrsh
    | 2 => .ldr
    | _ => .illegal
  else
    match op with
    | 0 => .strb
    | 1 => .strh
    | 2 => .str
    | _ => .illegal

/-- The branch of `disas_thumb2_insn` that an instruction of 32 bits gets to. A caller passes no
other. -/
def thumb2Op : Thumb2Op :=
  if insn &&& 0xf800e800 ≠ 0xf000e800 ∧ !feature .THUMB2 then .illegal
  else
    match insnField insn 25 0xf with
    | 4 => if insnBit insn 22 then thumb2OtherLoadStore feature insn else thumb2Multiple user insn
    | 5 => thumb2ShiftedData insn
    | 13 => thumb2MiscData feature insn
    | 6 | 7 | 14 | 15 => .coprocessor
    | 8 | 9 | 10 | 11 =>
      if insnBit insn 15 then thumb2Control feature user insn else thumb2Immediate insn
    | 12 => thumb2LoadStore insn
    | _ => .illegal

end Thumb2

/-- What is recorded in each branch. -/
def Thumb2Op.notes : Thumb2Op → List Note
  | .blxSecondHalf => [.charge "BLX_imm"]
  | .blSecondHalf => [.charge "BL"]
  | .ldrd => [.record "LDRD_imm"]
  | .strd => [.record "STRD_imm"]
  | .ldrex => [.record "LDREX"]
  | .strex => [.record "STREX"]
  | .tbh => [.record "TBH"]
  | .tbb => [.record "TBB"]
  | .ldrexb => [.record "LDREXB"]
  | .strexb => [.record "STREXB"]
  | .rfe => [.record "RFE"]
  | .srs => [.record "SRS"]
  | .ldm => [.record "LDRM"]
  | .stm => [.record "STM"]
  | .pkhtb => [.record "PKHTB"]
  | .pkhbt => [.record "PKHBT"]
  | .and => [.charge "AND_reg"]
  | .bic => [.charge "BIC_reg"]
  | .orr => [.charge "ORR_reg"]
  | .orn => [.charge "ORN_reg"]
  | .eor => [.charge "EOR_reg"]
  | .add | .adc => [.charge "ADD_reg"]
  | .sbc => [.charge "SBC_reg"]
  | .sub => [.charge "SUB_reg"]
  | .rsb => [.charge "RSB_reg"]
  | .sxth => [.record "SXTH"]
  | .uxth => [.record "UXTH"]
  | .sxtb16 => [.record "SXTB16"]
  | .uxtb16 => [.record "UXTB16"]
  | .sxtb => [.record "SXTB"]
  | .uxtb => [.record "UXTB"]
  | .rbit => [.record "RBIT"]
  | .rev => [.record "REV"]
  | .rev16 => [.record "REV16"]
  | .revsh => [.record "REVSH"]
  | .sel => [.record "SEL"]
  | .clz => [.record "CLZ"]
  | .udiv => [.record "UDIV"]
  | .sdiv => [.record "SDIV"]
  | .umaal => [.record "UMAAL"]
  | .b => [.record "B"]
  | .blx => [.record "BLX_reg"]
  | .v7mMsr => [.record "MSR"]
  | .cps => [.record "CPS"]
  | .clrex => [.record "CLREX"]
  | .bxj => [.record "BX"]
  | .mrs => [.record "MRS"]
  | .sbfx => [.record "SBFX"]
  | .ubfx => [.record "UBFX"]
  | .bfi => [.record "BIC_imm"]
  | .usat => [.record "USAT"]
  | .ssat => [.record "SSAT"]
  | .movt => [.record "MOVT"]
  | .movw => [.record "MOVW"]
  | .subImm => [.record "SUB_imm"]
  | .addImm => [.record "ADD_imm"]
  | .ldrb => [.record "LDRB_reg"]
  | .ldrsb => [.record "LDRSB_reg"]
  | .ldrh => [.record "LDRH_reg"]
  | .ldrsh => [.record "LDRSH_reg"]
  | .ldr => [.record "LDR_reg"]
  | .strb => [.record "STRB_reg"]
  | .strh => [.record "STRH_reg"]
  | .str => [.record "STR_reg"]
  | _ => []

/-- The branches that have a name. -/
def Thumb2Op.named : Thumb2Op → Bool
  | .illegal | .blxSecondHalf | .blSecondHalf | .blFirstHalf | .and | .bic | .orr | .orn | .eor
      | .add | .adc | .sbc
  | .sub | .rsb | .shiftReg | .parallelAddSub | .saturating | .multiply | .multiplyLong
      | .coprocessor | .msr
  | .userNop | .barrier | .exceptionReturn | .condBranch | .wholeField | .adr | .neon | .hint =>
    false
  | _ => true

/-- How often a branch records its name. -/
def Thumb2Op.times (insn : UInt32) : Thumb2Op → ℕ
  | .ldm | .stm => regCount insn 16
  | _ => 1

/-! ### Thumb -/

/-- The branches of `disas_thumb_insn`. -/
inductive ThumbOp where
  | undefInsn
  /-- An addition of three operands, the last of which is an immediate or `r0`. -/
  | addThree
  | addThreeReg
  /-- A subtraction of three operands, the last of which is an immediate or `r0`. -/
  | subThree
  | subThreeReg | shiftImm | movImm | cmpImm | addImm | subImm | ldrLiteral | addHigh | cmpHigh
  | movHigh | blxReg | bx | and | eor | lsl | lsr | asr | adc | sbc | ror | tst | neg | cmp | cmn
  | orr | mul | bic | mvn | strReg | strhReg | strbReg | ldrsbReg | ldrReg | ldrhReg | ldrbReg
  | ldrshReg | ldrImm | strImm | ldrbImm | strbImm | ldrhImm | strhImm | ldrStack | strStack
  | addToHigh | adjustSp | sxth | sxtb | uxth | uxtb | pop | push | cbz | ifThen | bkpt | rev
  | rev16 | revsh | userNop | cps | ldm | stm | swi | condBranch | branch
  deriving DecidableEq

section Thumb

variable (feature : ArmFeature → Bool) (user : Bool) (insn : UInt32)

/-- Data processing. -/
def thumbData : ThumbOp :=
  if insnBit insn 11 then .ldrLiteral
  else if insnBit insn 10 then
    match insnField insn 8 3 with
    | 0 => .addHigh
    | 1 => .cmpHigh
    | 2 => .movHigh
    | _ => if insnBit insn 7 then if feature .V5 then .blxReg else .undefInsn else .bx
  else
    match insnField insn 6 0xf with
    | 0x0 => .and
    | 0x1 => .eor
    | 0x2 => .lsl
    | 0x3 => .lsr
    | 0x4 => .asr
    | 0x5 => .adc
    | 0x6 => .sbc
    | 0x7 => .ror
    | 0x8 => .tst
    | 0x9 => .neg
    | 0xa => .cmp
    | 0xb => .cmn
    | 0xc => .orr
    | 0xd => .mul
    | 0xe => .bic
    | _ => .mvn

/-- Loads and stores with a register offset. -/
def thumbLoadStoreReg : ThumbOp :=
  match insnField insn 9 7 with
  | 0 => .strReg
  | 1 => .strhReg
  | 2 => .strbReg
  | 3 => .ldrsbReg
  | 4 => .ldrReg
  | 5 => .ldrhReg
  | 6 => .ldrbReg
  | _ => .ldrshReg

/-- Shifts by an immediate, and additions and subtractions of three operands. -/
def thumbAddSub : ThumbOp :=
  let rm := if insnBit insn 10 then 0 else insnField insn 6 7
  if insnField insn 11 3 ≠ 3 then .shiftImm
  else if insnBit insn 9 then if rm = 0 then .subThree else .subThreeReg
  else if rm = 0 then .addThree else .addThreeReg

/-- Miscellaneous instructions. -/
def thumbMiscellaneous : ThumbOp :=
  match insnField insn 8 0xf with
  | 0x0 => .adjustSp
  | 0x2 =>
    if !feature .V6 then .undefInsn
    else
      match insnField insn 6 3 with
      | 0 => .sxth
      | 1 => .sxtb
      | 2 => .uxth
      | _ => .uxtb
  | 0x4 | 0x5 | 0xc | 0xd => if insnBit insn 11 then .pop else .push
  | 0x1 | 0x3 | 0x9 | 0xb => .cbz
  | 0xf => .ifThen
  | 0xe => if feature .V5 then .bkpt else .undefInsn
  | 0xa =>
    if !feature .V6 then .undefInsn
    else
      match insnField insn 6 3 with
      | 0 => .rev
      | 1 => .rev16
      | 3 => .revsh
      | _ => .undefInsn
  | 0x6 => if !feature .V6 then .undefInsn else if user then .userNop else .cps
  | _ => .undefInsn

/-- The branch of `disas_thumb_insn` for an instruction of 16 bits; `none` when there are 16
more. -/
def thumbOp : Option ThumbOp :=
  match insnField insn 12 0xf with
  | 0 | 1 => some (thumbAddSub insn)
  | 2 | 3 =>
    match insnField insn 11 3 with
    | 0 => some .movImm
    | 1 => some .cmpImm
    | 2 => some .addImm
    | _ => some .subImm
  | 4 => some (thumbData feature insn)
  | 5 => some (thumbLoadStoreReg insn)
  | 6 => some (if insnBit insn 11 then .ldrImm else .strImm)
  | 7 => some (if insnBit insn 11 then .ldrbImm else .strbImm)
  | 8 => some (if insnBit insn 11 then .ldrhImm else .strhImm)
  | 9 => some (if insnBit insn 11 then .ldrStack else .strStack)
  | 10 => some .addToHigh
  | 11 => some (thumbMiscellaneous feature user insn)
  | 12 => some (if insnBit insn 11 then .ldm else .stm)
  | 13 =>
    match insnField insn 8 0xf with
    | 0xe => some .undefInsn
    | 0xf => some .swi
    | _ => some .condBranch
  | 14 => if insnBit insn 11 then none else some .branch
  | _ => none

end Thumb

/-- What is recorded in each branch. -/
def ThumbOp.notes : ThumbOp → List Note
  | .addThree | .addImm => [.record "ADD_imm"]
  | .addThreeReg | .addHigh => [.record "ADD_reg"]
  | .subThree | .subImm => [.record "SUB_imm"]
  | .subThreeReg => [.record "SUB_reg"]
  | .movImm => [.record "MOV_imm"]
  | .cmpImm => [.record "CMP_imm"]
  | .ldrLiteral | .ldrImm => [.record "LDR_imm_off"]
  | .cmpHigh | .cmp => [.record "CMP_reg"]
  | .movHigh => [.record "MOV_reg"]
  | .blxReg => [.record "BLX_reg"]
  | .and => [.record "AND_reg"]
  | .eor => [.record "EOR_reg"]
  | .lsl => [.record "LSL_reg"]
  | .lsr => [.record "LSR_reg"]
  | .asr => [.record "ASR_reg"]
  | .adc => [.record "ADC_reg"]
  | .sbc => [.record "SBC_reg"]
  | .ror => [.record "ROR_reg"]
  | .tst => [.record "TST_reg"]
  -- recorded where the operand is made, and once more
  | .neg => [.record "NEG_reg", .record "NEG_reg"]
  | .cmn => [.record "CMN_reg"]
  | .orr => [.record "ORR_reg"]
  | .mul => [.record "MUL"]
  | .bic => [.record "BIC_reg"]
  | .mvn => [.record "MVN_reg"]
  | .strReg => [.record "STR_reg"]
  | .strhReg => [.record "STRH_reg"]
  | .strbReg => [.record "STRB_reg"]
  | .ldrsbReg => [.record "LDRSB_reg"]
  | .ldrReg => [.record "LDR_reg"]
  | .ldrhReg => [.record "LDRH_reg"]
  | .ldrbReg => [.record "LDRB_reg"]
  | .ldrshReg => [.record "LDRSH_reg"]
  | .strImm => [.record "STR_imm_off"]
  | .ldrbImm => [.record "LDRB_imm_off"]
  | .strbImm => [.record "STRB_imm_off"]
  | .ldrhImm => [.record "LDRH_imm_off"]
  | .strhImm => [.record "STRH_imm_off"]
  | .ldrStack => [.record "PUSH"]
  | .strStack => [.record "POP"]
  | .sxth => [.record "SXTH"]
  | .sxtb => [.record "SXTB"]
  | .uxth => [.record "UXTH"]
  | .uxtb => [.record "UXTB"]
  | .pop => [.charge "POP"]
  | .push => [.charge "PUSH"]
  | .bkpt => [.record "BKPT"]
  | .rev => [.record "REV"]
  | .rev16 => [.record "REV16"]
  | .revsh => [.record "REVSH"]
  | .cps => [.record "CPS"]
  | .ldm => [.record "LDRM"]
  | .stm => [.record "STM"]
  | .swi => [.charge "SWI"]
  | .branch => [.record "B"]
  | _ => []

/-- The branches that have a name. -/
def ThumbOp.named : ThumbOp → Bool
  | .undefInsn | .shiftImm | .bx | .addToHigh | .adjustSp | .cbz | .ifThen | .userNop | .condBranch
      | .pop | .push
  | .swi => false
  | _ => true

/-- How often a branch records its name. -/
def ThumbOp.times (insn : UInt32) : ThumbOp → ℕ
  | .ldm | .stm | .pop | .push => regCount insn 8
  | _ => 1

/-! ### The decoders -/

/-- The branch of a decoder that an instruction gets to. -/
inductive GuestOp where
  | arm (op : ArmOp)
  | thumb2 (op : Thumb2Op)
  | thumb (op : ThumbOp)

/-- What is recorded in each branch. -/
def GuestOp.notes : GuestOp → List Note
  | .arm op => op.notes
  | .thumb2 op => op.notes
  | .thumb op => op.notes

/-- The branches that have a name. -/
def GuestOp.named : GuestOp → Bool
  | .arm op => op.named
  | .thumb2 op => op.named
  | .thumb op => op.named

/-- An instruction: the branch that it gets to, and how often its name is recorded there. -/
structure GuestInsn where
  op : GuestOp
  times : ℕ

/-- What is done with the name of an instruction. -/
def GuestInsn.notes (insn : GuestInsn) : List Note :=
  (List.replicate insn.times insn.op.notes).flatten

/-- The names that a block is charged for. -/
def GuestInsn.names (insn : GuestInsn) : List String := insn.notes.filterMap Note.name?

/-- The instructions that have a name. Those with a list of registers need one in it. -/
def GuestInsn.named (insn : GuestInsn) : Bool := insn.op.named && insn.times != 0

section Decoders

variable (feature : ArmFeature → Bool) (user : Bool)

/-- `disas_arm_insn`: the instruction, and `s->pc` after it. There is none when the fetch faults. -/
def disasArmInsn (ldlCode : UInt32 → Option UInt32) (pc : UInt32) : Option (GuestInsn × UInt32) :=
  (ldlCode pc).map fun insn =>
    let op := armOp feature user insn
    (⟨.arm op, op.times insn⟩, pc + 4)

/-- `disas_thumb2_insn`, after the first 16 bits. On cores without Thumb-2, branches are made of two
halves. -/
def disasThumb2Insn (lduwCode : UInt32 → Option UInt32) (pc insnHw1 : UInt32) :
    Option (GuestInsn × UInt32) :=
  let thumb1 := !(feature .THUMB2 || feature .M)
  if thumb1 && !insnBit insnHw1 12 then
    some (⟨.thumb2 (if feature .V5 then .blxSecondHalf else .illegal), 1⟩, pc)
  else if thumb1 && insnBit insnHw1 11 then some (⟨.thumb2 .blSecondHalf, 1⟩, pc)
  else if thumb1 && pc &&& (TARGET_PAGE_SIZE - 1) == 0 then some (⟨.thumb2 .blFirstHalf, 1⟩, pc)
  else
    (lduwCode pc).map fun insn =>
      let insn := insn ||| insnHw1 <<< 16
      let op := thumb2Op feature user insn
      (⟨.thumb2 op, op.times insn⟩, pc + 2)

/-- `disas_thumb_insn`. -/
def disasThumbInsn (lduwCode : UInt32 → Option UInt32) (pc : UInt32) :
    Option (GuestInsn × UInt32) :=
  (lduwCode pc).bind fun insn =>
    match thumbOp feature user insn with
    | some op => some (⟨.thumb op, op.times insn⟩, pc + 2)
    | none => disasThumb2Insn feature user lduwCode (pc + 2) insn

end Decoders

/-- `mov r0, r1` has no name. -/
example : armOp (fun f => f != .M) true 0xe1a00001 = .mov := by decide

/-- The same instruction has one in Thumb. -/
example : thumbOp (fun _ => true) true 0x4608 = some .movHigh := by decide

/-! ### Named instructions -/

/-- Does a note store an index? -/
def Note.recorded : Note → Bool
  | .record _ => true
  | _ => false

theorem GuestOp.recorded_of_named {op : GuestOp} (h : op.named = true) :
    op.notes ≠ [] ∧ ∀ n ∈ op.notes, n.recorded = true := by
  revert h
  rcases op with op | op | op <;> cases op <;> decide

/-- **An instruction that has a name stores it**, and stores nothing else. -/
theorem GuestInsn.recorded_of_named {insn : GuestInsn} (h : insn.named = true) :
    insn.notes ≠ [] ∧ ∀ n ∈ insn.notes, n.recorded = true := by
  obtain ⟨hop, htimes⟩ := Bool.and_eq_true_iff.mp h
  obtain ⟨hne, hall⟩ := GuestOp.recorded_of_named hop
  constructor
  · intro hnil
    refine hne (flatten_eq_nil_iff.mp hnil _ (mem_replicate.mpr ⟨?_, rfl⟩))
    exact bne_iff_ne.mp htimes
  · intro n hn
    obtain ⟨l, hl, hnl⟩ := mem_flatten.mp hn
    exact hall n (eq_of_mem_replicate hl ▸ hnl)

/-! ### Known names -/

/-- The names in the map, whatever the configuration. -/
def armNames : List String := armInstructions.map InsnEntry.instruction

/-- The branches by their numbers, so that all of them are evaluated at once. -/
theorem known_notes_all : ∀ op ∈ (range 92).map (GuestOp.arm ∘ ArmOp.ofNat) ++
    (range 82).map (GuestOp.thumb2 ∘ Thumb2Op.ofNat) ++ (range 69).map
      (GuestOp.thumb ∘ ThumbOp.ofNat),
    ∀ n ∈ op.notes, ∀ name ∈ n.name?, name ∈ armNames := by
  decide +kernel

theorem GuestOp.known_notes (op : GuestOp) : ∀ n ∈ op.notes, ∀ name ∈ n.name?, name ∈ armNames := by
  refine known_notes_all op ?_
  simp only [mem_append, mem_map, mem_range]
  rcases op with op | op | op
  · exact .inl (.inl ⟨op.ctorIdx, by cases op <;> decide, congrArg _ (ArmOp.ofNat_ctorIdx op)⟩)
  · exact .inl (.inr ⟨op.ctorIdx, by cases op <;> decide, congrArg _ (Thumb2Op.ofNat_ctorIdx op)⟩)
  · exact .inr ⟨op.ctorIdx, by cases op <;> decide, congrArg _ (ThumbOp.ofNat_ctorIdx op)⟩

/-- **Every name that a decoder uses is in the map.** -/
theorem GuestInsn.known_names (insn : GuestInsn) : ∀ name ∈ insn.names, name ∈ armNames := by
  intro name hname
  obtain ⟨n, hn, hname⟩ := mem_filterMap.mp hname
  obtain ⟨l, hl, hnl⟩ := mem_flatten.mp hn
  exact insn.op.known_notes n (eq_of_mem_replicate hl ▸ hnl) name hname

end VariabilityTestbed.Translate
