import Mathlib.Algebra.Ring.Nat
import Mathlib.Logic.Function.Basic

/-!
# TCG operations

The intermediate code of the translator is kept in two buffers: `gen_opc_buf` holds the opcodes, and
`gen_opparam_buf` their parameters one after the other. Most opcodes have a fixed number of outputs,
inputs and constants, given by the table `tcg_op_defs`; a call and `nopn` carry their length as the
last parameter, so that the buffers can be read backward.
-/

namespace VariabilityTestbed.Tcg

/-- The width of an operation. -/
inductive Width where
  | i32
  | i64
  deriving DecidableEq, Repr

/-- The opcodes of `tcg-opc.h`; `add .i32` is `INDEX_op_add_i32`. -/
inductive Opcode where
  | endOp | nop | nop1 | nop2 | nop3 | nopn
  | discard
  | setLabel | call | jmp | br
  | mov (w : Width) | movi (w : Width) | setcond (w : Width)
  | ld8u (w : Width) | ld8s (w : Width) | ld16u (w : Width) | ld16s (w : Width)
  | ld32uI64 | ld32sI64 | ld (w : Width)
  | st8 (w : Width) | st16 (w : Width) | st32I64 | st (w : Width)
  | add (w : Width) | sub (w : Width) | mul (w : Width)
  | div (w : Width) | divu (w : Width) | rem (w : Width) | remu (w : Width)
  | div2 (w : Width) | divu2 (w : Width)
  | and (w : Width) | or (w : Width) | xor (w : Width)
  | shl (w : Width) | shr (w : Width) | sar (w : Width)
  | rotl (w : Width) | rotr (w : Width) | deposit (w : Width)
  | brcond (w : Width)
  | add2I32 | sub2I32 | brcond2I32 | mulu2I32 | setcond2I32
  | ext8s (w : Width) | ext16s (w : Width) | ext32sI64
  | ext8u (w : Width) | ext16u (w : Width) | ext32uI64
  | bswap16 (w : Width) | bswap32 (w : Width) | bswap64I64
  | not (w : Width) | neg (w : Width)
  | andc (w : Width) | orc (w : Width) | eqv (w : Width) | nand (w : Width) | nor (w : Width)
  | debugInsnStart | exitTb | gotoTb
  | qemuLd8u | qemuLd8s | qemuLd16u | qemuLd16s | qemuLd32 | qemuLd32u | qemuLd32s | qemuLd64
  | qemuSt8 | qemuSt16 | qemuSt32 | qemuSt64
  deriving DecidableEq, Repr

/-- A `TCGOpDef`: numbers of arguments, and the flags `TCG_OPF_*`. -/
structure OpDef where
  nbOargs : ℕ
  nbIargs : ℕ
  nbCargs : ℕ
  bbEnd : Bool := false
  callClobber : Bool := false
  sideEffects : Bool := false
  deriving DecidableEq, Repr

namespace OpDef

/-- All arguments. -/
def nbArgs (d : OpDef) : ℕ := d.nbOargs + d.nbIargs + d.nbCargs

/-- An operation without flags. -/
def plain (o i c : ℕ) : OpDef := ⟨o, i, c, false, false, false⟩

/-- `TCG_OPF_SIDE_EFFECTS`. -/
def store (o i c : ℕ) : OpDef := ⟨o, i, c, false, false, true⟩

/-- `TCG_OPF_BB_END | TCG_OPF_SIDE_EFFECTS`. -/
def branch (o i c : ℕ) : OpDef := ⟨o, i, c, true, false, true⟩

/-- `TCG_OPF_CALL_CLOBBER | TCG_OPF_SIDE_EFFECTS`. -/
def guest (o i c : ℕ) : OpDef := ⟨o, i, c, false, true, true⟩

end OpDef

/-- What the table depends on: registers of the host have 64 bits (`TCG_TARGET_REG_BITS`), and so
have addresses of the guest (`TARGET_LONG_BITS`). -/
structure Target where
  regs64 : Bool
  long64 : Bool
  deriving DecidableEq, Repr

/-- The registers of the host that an address of the guest takes. -/
def Target.addr (tg : Target) : ℕ := if tg.long64 && !tg.regs64 then 2 else 1

/-- The registers of the host that 64 bits take. -/
def Target.quad (tg : Target) : ℕ := if tg.regs64 then 1 else 2

/-- `tcg_op_defs`. -/
def tcgOpDefs (tg : Target) : Opcode → OpDef
  | .endOp | .nop => .plain 0 0 0
  | .nop1 => .plain 0 0 1
  | .nop2 => .plain 0 0 2
  | .nop3 => .plain 0 0 3
  | .nopn => .plain 0 0 1
  | .discard => .plain 1 0 0
  | .setLabel => .plain 0 0 1
  | .call => .store 0 1 2
  | .jmp => .branch 0 1 0
  | .br => .branch 0 0 1
  | .mov _ => .plain 1 1 0
  | .movi _ => .plain 1 0 1
  | .setcond _ => .plain 1 2 1
  | .ld8u _ | .ld8s _ | .ld16u _ | .ld16s _ | .ld32uI64 | .ld32sI64 | .ld _ => .plain 1 1 1
  | .st8 _ | .st16 _ | .st32I64 | .st _ => .store 0 2 1
  | .add _ | .sub _ | .mul _ => .plain 1 2 0
  | .div _ | .divu _ | .rem _ | .remu _ => .plain 1 2 0
  | .div2 _ | .divu2 _ => .plain 2 3 0
  | .and _ | .or _ | .xor _ => .plain 1 2 0
  | .shl _ | .shr _ | .sar _ | .rotl _ | .rotr _ => .plain 1 2 0
  | .deposit _ => .plain 1 2 2
  | .brcond _ => .branch 0 2 2
  | .add2I32 | .sub2I32 => .plain 2 4 0
  | .brcond2I32 => .branch 0 4 2
  | .mulu2I32 => .plain 2 2 0
  | .setcond2I32 => .plain 1 4 1
  | .ext8s _ | .ext16s _ | .ext32sI64 | .ext8u _ | .ext16u _ | .ext32uI64 => .plain 1 1 0
  | .bswap16 _ | .bswap32 _ | .bswap64I64 | .not _ | .neg _ => .plain 1 1 0
  | .andc _ | .orc _ | .eqv _ | .nand _ | .nor _ => .plain 1 2 0
  | .debugInsnStart => .plain 0 0 tg.addr
  | .exitTb | .gotoTb => .branch 0 0 1
  | .qemuLd8u | .qemuLd8s | .qemuLd16u | .qemuLd16s | .qemuLd32 | .qemuLd32u | .qemuLd32s =>
    .guest 1 tg.addr 1
  | .qemuLd64 => .guest tg.quad tg.addr 1
  | .qemuSt8 | .qemuSt16 | .qemuSt32 => .guest 0 (1 + tg.addr) 1
  | .qemuSt64 => .guest 0 (tg.quad + tg.addr) 1

/-- An operation that ends a basic block has effects, and no outputs. -/
theorem tcgOpDefs_bbEnd {tg : Target} {opc : Opcode} (h : (tcgOpDefs tg opc).bbEnd = true) :
    (tcgOpDefs tg opc).sideEffects = true ∧ (tcgOpDefs tg opc).nbOargs = 0 := by
  cases opc <;> first | exact ⟨rfl, rfl⟩ | cases h

/-- No operation of the table has more than six arguments. -/
theorem tcgOpDefs_nbArgs_le (tg : Target) (opc : Opcode) : (tcgOpDefs tg opc).nbArgs ≤ 6 := by
  obtain ⟨_ | _, _ | _⟩ := tg <;> cases opc <;> exact Nat.le_of_ble_eq_true rfl

/-- What the analysis reads of the `TCGContext`. -/
structure Context where
  target : Target
  nbGlobals : ℕ
  nbTemps : ℕ
  tempLocal : ℕ → Bool

namespace Context

variable (s : Context)

/-- `TCG_CALL_DUMMY_ARG`, the number -1 as a `TCGArg`. -/
def callDummyArg : ℕ := if s.target.regs64 then 2 ^ 64 - 1 else 2 ^ 32 - 1

/-- A global. -/
def IsGlobal (t : ℕ) : Prop := t < s.nbGlobals

/-- A variable that is kept over the end of a basic block: a global or a local temporary. -/
def IsKept (t : ℕ) : Prop := t < s.nbGlobals ∨ t < s.nbTemps ∧ s.tempLocal t = true

instance (t : ℕ) : Decidable (s.IsGlobal t) := inferInstanceAs (Decidable (_ < _))

instance (t : ℕ) : Decidable (s.IsKept t) := inferInstanceAs (Decidable (_ ∨ _))

end Context

/-- `TCG_CALL_PURE`. -/
def callPure : ℕ := 0x10

/-- `TCG_CALL_CONST`. -/
def callConst : ℕ := 0x20

/-- `MAX_OPC_PARAM`, for the parameters that the buffers have room for in each operation. -/
def maxOpcParam : ℕ := 14

/-- `TCG_MAX_TEMPS`. -/
def tcgMaxTemps : ℕ := 512

/-- An operation. The inputs of a call end with the helper; the parameters of `nopn` begin and end
with their number. -/
inductive Op where
  | call (outs ins : List ℕ) (flags : ℕ)
  | nopn (params : List ℕ)
  | plain (opc : Opcode) (outs ins consts : List ℕ)
  deriving DecidableEq, Repr

namespace Op

/-- What stands in `gen_opc_buf`. -/
def opcode : Op → Opcode
  | call .. => .call
  | nopn _ => .nopn
  | plain opc .. => opc

/-- What stands in `gen_opparam_buf`. -/
def params : Op → List ℕ
  | call outs ins flags =>
    (outs.length <<< 16 ||| ins.length) :: (outs ++ ins ++ [flags, outs.length + ins.length + 3])
  | nopn params => params
  | plain _ outs ins consts => outs ++ ins ++ consts

/-- The variables that are written. -/
def outs : Op → List ℕ
  | call outs .. => outs
  | nopn _ => []
  | plain _ outs .. => outs

/-- The parameters that are read. -/
def ins : Op → List ℕ
  | call _ ins _ => ins
  | nopn _ => []
  | plain _ _ ins _ => ins

variable (s : Context)

/-- The variables that are read. -/
def uses (op : Op) : List ℕ := op.ins.filter (· ≠ s.callDummyArg)

/-- A basic block ends with the operation, or in front of it. -/
def endsBlock : Op → Bool
  | plain opc .. => decide (opc = .setLabel) || (tcgOpDefs s.target opc).bbEnd
  | _ => false

/-- The operation may use globals. -/
def usesGlobals : Op → Bool
  | call _ _ flags => flags &&& callConst == 0
  | nopn _ => false
  | plain opc .. => (tcgOpDefs s.target opc).callClobber

/-- The operation is encoded as the generators do it, and its variables exist. -/
def Ok : Op → Prop
  | call outs ins _ =>
    outs.length + ins.length + 3 ≤ maxOpcParam ∧ (∀ t ∈ outs, t < s.nbTemps) ∧
      ∀ t ∈ ins, t = s.callDummyArg ∨ t < s.nbTemps
  | nopn params =>
    params ≠ [] ∧ params.head? = some params.length ∧ params.getLast? = some params.length
  | plain opc outs ins consts =>
    opc ≠ .call ∧ opc ≠ .nopn ∧ opc ≠ .endOp ∧
      outs.length = (tcgOpDefs s.target opc).nbOargs ∧
      ins.length = (tcgOpDefs s.target opc).nbIargs ∧
      consts.length = (tcgOpDefs s.target opc).nbCargs ∧
      (∀ t ∈ outs, t < s.nbTemps) ∧ ∀ t ∈ ins, t < s.nbTemps

/-- The operation is the label. -/
def isLabel (l : ℕ) : Op → Bool
  | plain opc _ _ consts => decide (opc = .setLabel) && decide (consts = [l])
  | _ => false

end Op

/-- `gen_opc_buf`. -/
def opcodes (ops : List Op) : List Opcode := ops.map Op.opcode

/-- `gen_opparam_buf`. -/
def opparams (ops : List Op) : List ℕ := ops.flatMap Op.params

end VariabilityTestbed.Tcg
