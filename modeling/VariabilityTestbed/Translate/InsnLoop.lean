import VariabilityTestbed.Translate.Windows

/-!
# The translation loop

`gen_intermediate_code_internal` translates one instruction after the other until the block ends.
It runs in two modes. With `search_pc = 0` it translates a new block; with `search_pc = 1` it goes
through an existing block once more, to find out which instruction a host address belongs to, and
fills the arrays `gen_opc_pc`, `gen_opc_instr_start` and their siblings.

The two instruction decoders are parameters: `disasArmInsn` and `disasThumbInsn` say, for a
`DisasContext`, what the context is afterwards, which names were handed to
`variability_counters_manip`, and how many operations were emitted; or that fetching the
instruction faulted. A decoder reads guest code and the CPU, so a decoder that is used twice stands
for unmodified guest code.

The result of a pass is a `Pass`: the instructions translated, in order, and the state of the loop
when it was left. The loop is structurally recursive on `max_insns`, which it never exceeds.
-/

namespace VariabilityTestbed.Translate

/-! ### The data of a translation -/

/-- `dc->is_jmp`. -/
inductive IsJmp where
  | next
  | jump
  | update
  | tbJump
  | wfi
  | swi
  deriving DecidableEq, Repr

/-- `DisasContext`, without its label and its pointer to the block. -/
structure DisasContext where
  pc : UInt32
  isJmp : IsJmp
  condjmp : Bool
  condexecMask : UInt32
  condexecCond : UInt32
  singlestepEnabled : Bool
  thumb : Bool
  user : Bool
  vfpEnabled : Bool
  vecLen : UInt32
  vecStride : UInt32
  deriving DecidableEq, Repr

/-- What a decoder did. -/
inductive Decode where
  /-- An instruction was translated: the context, the names it was charged as and the number of
  operations emitted. -/
  | insn (dc : DisasContext) (names : List String) (ops : ℕ)
  /-- The fetch faulted, and the translation is abandoned. -/
  | fault (names : List String)

/-- What a translation reads, apart from the flags and the block itself. -/
structure TransEnv where
  /-- `IS_M(env)`. -/
  isM : Bool
  /-- `env->breakpoints`. -/
  breakpoints : List UInt32
  /-- `env->singlestep_enabled`, the single-stepping of the debugger. -/
  singlestepEnabled : Bool
  useIcount : Bool
  /-- `qemu_loglevel_mask(CPU_LOG_TB_OP)`. -/
  logTbOp : Bool
  disasArmInsn : DisasContext → Decode
  disasThumbInsn : DisasContext → Decode

/-- The fields of a `TranslationBlock` that a translation starts from. -/
structure TbHeader where
  pc : UInt32
  flags : UInt32
  cflags : UInt16
  deriving DecidableEq, Repr

/-- `exec-all.h`: `CF_COUNT_MASK`. -/
def CF_COUNT_MASK : UInt16 := 0x7fff

/-- `exec-all.h`: `CF_LAST_IO`. -/
def CF_LAST_IO : UInt16 := 0x8000

/-- `exec-all.h`: `OPC_BUF_SIZE - MAX_OP_PER_INSTR`. -/
def OPC_MAX_SIZE : ℕ := 640 - 208

/-- `1 << TARGET_PAGE_BITS`. -/
def TARGET_PAGE_SIZE : UInt32 := 1024

/-- `max_insns`. -/
def TbHeader.maxInsns (tb : TbHeader) : ℕ :=
  if tb.cflags &&& CF_COUNT_MASK = 0 then CF_COUNT_MASK.toNat
  else (tb.cflags &&& CF_COUNT_MASK).toNat

/-- `tb->cflags & CF_LAST_IO`. -/
def TbHeader.lastIo (tb : TbHeader) : Bool := tb.cflags &&& CF_LAST_IO != 0

/-- `next_page_start`. On the last page it wraps to zero. -/
def TbHeader.nextPageStart (tb : TbHeader) : UInt32 :=
  (tb.pc &&& ~~~(TARGET_PAGE_SIZE - 1)) + TARGET_PAGE_SIZE

/-- `ARM_TBFLAG_CONDEXEC(tb->flags)`. -/
def TbHeader.condexec (tb : TbHeader) : UInt32 := (tb.flags &&& 0xff00) >>> 8

/-- The context a translation starts with. -/
def initDisasContext (e : TransEnv) (tb : TbHeader) : DisasContext where
  pc := tb.pc
  isJmp := .next
  condjmp := false
  condexecMask := (tb.condexec &&& 0xf) <<< 1
  condexecCond := tb.condexec >>> 4
  singlestepEnabled := e.singlestepEnabled
  thumb := tb.flags &&& 1 != 0
  user := tb.flags &&& 0x40 == 0
  vfpEnabled := tb.flags &&& 0x80 != 0
  vecLen := (tb.flags &&& 0xe) >>> 1
  vecStride := (tb.flags &&& 0x30) >>> 4

/-! ### The arrays that map operations to instructions -/

/-- `gen_opc_pc`, `gen_opc_condexec_bits`, `gen_opc_instr_start` and `gen_opc_icount`. -/
structure OpcMap where
  pc : ℕ → UInt32
  condexecBits : ℕ → UInt32
  instrStart : ℕ → Bool
  icount : ℕ → ℕ

/-- `while (lj < j) gen_opc_instr_start[lj++] = 0`. -/
def OpcMap.clearStarts (m : OpcMap) (lj j : ℕ) : OpcMap :=
  { m with instrStart := fun k => if lj ≤ k ∧ k < j then false else m.instrStart k }

/-- The four assignments at index `lj`. -/
def OpcMap.setStart (m : OpcMap) (lj : ℕ) (dc : DisasContext) (numInsns : ℕ) : OpcMap where
  pc := Function.update m.pc lj dc.pc
  condexecBits :=
    Function.update m.condexecBits lj ((dc.condexecCond <<< 4) ||| (dc.condexecMask >>> 1))
  instrStart := Function.update m.instrStart lj true
  icount := Function.update m.icount lj numInsns

/-- What is recorded before an instruction is translated, when `j` operations have been emitted.
`lj` is stored plus one, so that it starts at zero. -/
def OpcMap.record (m : OpcMap) (lj j : ℕ) (dc : DisasContext) (numInsns : ℕ) : OpcMap × ℕ :=
  if lj ≤ j then ((m.clearStarts lj j).setStart j dc numInsns, j + 1)
  else (m.setStart (lj - 1) dc numInsns, lj)

/-! ### The loop -/

/-- The variables of the loop. -/
structure LoopState where
  dc : DisasContext
  /-- `gen_opc_ptr - gen_opc_buf`. -/
  ops : ℕ
  numInsns : ℕ
  flags : StepFlags
  opcMap : OpcMap
  /-- `lj + 1`. -/
  lj : ℕ

/-- One translated instruction. -/
structure Round where
  /-- `dc->pc` before the instruction. -/
  startPc : UInt32
  /-- The index of its first operation. -/
  startOp : ℕ
  /-- The names the block was charged for. -/
  names : List String
  /-- `dc->pc` after it. -/
  endPc : UInt32
  /-- `singlestep` after it. -/
  singlestep : Bool
  deriving DecidableEq, Repr

/-- How the loop was left. -/
inductive Ending where
  /-- The condition of the `while` was false. -/
  | condition
  /-- At one of the addresses that end an exception. -/
  | exceptionExit
  /-- At a breakpoint. -/
  | breakpoint
  /-- By a fault, with what the decoder had charged before it. -/
  | fault (names : List String)
  deriving DecidableEq, Repr

/-- A pass over a block. -/
structure Pass where
  rounds : List Round
  last : LoopState
  ending : Ending

/-- The names a pass has charged its block for. -/
def Pass.names (p : Pass) : List String :=
  p.rounds.flatMap Round.names ++ match p.ending with
    | .fault names => names
    | _ => []

/-- Did the pass get to its end? -/
def Pass.completed (p : Pass) : Bool :=
  match p.ending with
  | .fault _ => false
  | _ => true

/-- The `IT` state moves on after a Thumb instruction. -/
def DisasContext.advanceIt (dc : DisasContext) : DisasContext :=
  if dc.condexecMask = 0 then dc
  else
    let cond := (dc.condexecCond &&& (0xe : UInt32)) ||| ((dc.condexecMask >>> 4) &&& (1 : UInt32))
    let mask := (dc.condexecMask <<< 1) &&& 0x1f
    { dc with condexecMask := mask, condexecCond := if mask = 0 then 0 else cond }

/-- The call of a decoder. -/
def disasInsn (e : TransEnv) (dc : DisasContext) : Decode :=
  if dc.thumb then
    match e.disasThumbInsn dc with
    | .insn dc names ops => .insn dc.advanceIt names ops
    | .fault names => .fault names
  else e.disasArmInsn dc

/-- The operations emitted between the record of an instruction and its decoder: `gen_io_start`
before the last instruction, and a marker for the log. -/
def opsBefore (e : TransEnv) (tb : TbHeader) (s : LoopState) : ℕ :=
  (if s.numInsns + 1 = tb.maxInsns ∧ tb.lastIo then 2 else 0) + if e.logTbOp then 1 else 0

/-- The state after a decoder that left the context `dc` and emitted `ops` operations, with the
error windows consulted. A skipped instruction gets its label here. -/
def afterInsn (e : TransEnv) (tb : TbHeader) (searchPc : Bool) (s : LoopState) (dc : DisasContext)
    (ops : ℕ) : LoopState :=
  let (opcMap, lj) :=
    if searchPc then s.opcMap.record s.lj s.ops s.dc s.numInsns else (s.opcMap, s.lj)
  let skipped := dc.condjmp && dc.isJmp = .next
  { dc := if skipped then { dc with condjmp := false } else dc
    ops := s.ops + opsBefore e tb s + ops + if skipped then 1 else 0
    numInsns := s.numInsns + 1
    flags := updateWindows s.flags dc.pc
    opcMap := opcMap
    lj := lj }

/-- The condition of the `while`, without the test of `singlestep`. -/
def mayContinue (e : TransEnv) (tb : TbHeader) (s : LoopState) : Bool :=
  s.dc.isJmp = .next && s.ops < OPC_MAX_SIZE && !e.singlestepEnabled &&
    s.dc.pc < tb.nextPageStart && s.numInsns < tb.maxInsns

/-- `dc->pc >= 0xfffffff0 && IS_M(env)`. -/
def atExceptionExit (e : TransEnv) (pc : UInt32) : Bool := pc ≥ 0xfffffff0 && e.isM

/-- The `do … while` loop, for at most `fuel` instructions. -/
def insnLoop (e : TransEnv) (tb : TbHeader) (searchPc : Bool) : ℕ → LoopState → Pass
  | 0, s => ⟨[], s, .condition⟩
  | fuel + 1, s =>
    if atExceptionExit e s.dc.pc then
      ⟨[], { s with dc := { s.dc with isJmp := .update } }, .exceptionExit⟩
    else if e.breakpoints.contains s.dc.pc then
      ⟨[], { s with dc := { s.dc with pc := s.dc.pc + 2, isJmp := .jump } }, .breakpoint⟩
    else
      match disasInsn e s.dc with
      | .fault names => ⟨[], s, .fault names⟩
      | .insn dc names ops =>
        let s' := afterInsn e tb searchPc s dc ops
        let r : Round := ⟨s.dc.pc, s.ops, names, dc.pc, s'.flags.singlestep⟩
        if mayContinue e tb s' && !s'.flags.singlestep then
          let p := insnLoop e tb searchPc fuel s'
          { p with rounds := r :: p.rounds }
        else ⟨[r], s', .condition⟩

/-- The state before the first instruction. `gen_icount_start` emits six operations, clearing a
pending `IT` state two. -/
def initLoopState (e : TransEnv) (tb : TbHeader) (flags : StepFlags) (opcMap : OpcMap) :
    LoopState where
  dc := initDisasContext e tb
  ops := (if e.useIcount then 6 else 0) + if tb.condexec = 0 then 0 else 2
  numInsns := 0
  flags := flags
  opcMap := opcMap
  lj := 0

/-- `gen_intermediate_code_internal`, up to the code after the loop. -/
def genIntermediateCodeInternal (e : TransEnv) (tb : TbHeader) (searchPc : Bool)
    (flags : StepFlags) (opcMap : OpcMap) : Pass :=
  insnLoop e tb searchPc tb.maxInsns (initLoopState e tb flags opcMap)

/-! ### What the loop does to the flags and the counter -/

section Loop

variable {e : TransEnv} {tb : TbHeader} {searchPc : Bool} {fuel : ℕ} {s : LoopState}

/-- The values of `singlestep` after each of a sequence of instructions that end at `pcs`. -/
def stepsAfter : StepFlags → List UInt32 → List Bool
  | _, [] => []
  | g, pc :: pcs => (updateWindows g pc).singlestep :: stepsAfter (updateWindows g pc) pcs

@[simp] theorem afterInsn_numInsns (dc : DisasContext) (ops : ℕ) :
    (afterInsn e tb searchPc s dc ops).numInsns = s.numInsns + 1 := rfl

/-- Induction along the loop: a property of every pass that starts in a state. The four ways to
leave it are separate cases. -/
theorem insnLoop_induction {P : LoopState → Pass → Prop}
    (hstop : ∀ s s' ending, s'.flags = s.flags → s'.numInsns = s.numInsns →
      s'.ops = s.ops → s'.opcMap = s.opcMap → s'.lj = s.lj → P s ⟨[], s', ending⟩)
    (hlast : ∀ s dc names ops, disasInsn e s.dc = .insn dc names ops →
      P s ⟨[⟨s.dc.pc, s.ops, names, dc.pc, (updateWindows s.flags dc.pc).singlestep⟩],
        afterInsn e tb searchPc s dc ops, .condition⟩)
    (hnext : ∀ s dc names ops p, disasInsn e s.dc = .insn dc names ops →
      P (afterInsn e tb searchPc s dc ops) p →
      P s { p with rounds :=
        ⟨s.dc.pc, s.ops, names, dc.pc, (updateWindows s.flags dc.pc).singlestep⟩ :: p.rounds })
    (fuel : ℕ) (s : LoopState) : P s (insnLoop e tb searchPc fuel s) := by
  induction fuel generalizing s with
  | zero => exact hstop s s _ rfl rfl rfl rfl rfl
  | succ fuel ih =>
    rw [insnLoop]
    split
    · exact hstop s _ _ rfl rfl rfl rfl rfl
    split
    · exact hstop s _ _ rfl rfl rfl rfl rfl
    cases hd : disasInsn e s.dc with
    | fault names => exact hstop s s _ rfl rfl rfl rfl rfl
    | insn dc names ops =>
      dsimp only
      split
      · exact hnext s dc names ops _ hd (ih _)
      · exact hlast s dc names ops hd

variable (e tb searchPc)

/-- **The flags after a pass.** -/
theorem flags_insnLoop (fuel : ℕ) (s : LoopState) :
    let p := insnLoop e tb searchPc fuel s
    p.last.flags = (p.rounds.map Round.endPc).foldl updateWindows s.flags ∧
      p.rounds.map Round.singlestep = stepsAfter s.flags (p.rounds.map Round.endPc) := by
  refine insnLoop_induction (P := fun s p =>
    p.last.flags = (p.rounds.map Round.endPc).foldl updateWindows s.flags ∧
      p.rounds.map Round.singlestep = stepsAfter s.flags (p.rounds.map Round.endPc)) ?_ ?_ ?_ fuel s
  · intro s s' ending hflags _ _ _ _
    exact ⟨hflags, rfl⟩
  · intro s dc names ops _
    exact ⟨rfl, rfl⟩
  · rintro s dc names ops p _ ⟨hflags, hsteps⟩
    refine ⟨hflags, ?_⟩
    show _ :: p.rounds.map Round.singlestep = _ :: _
    rw [hsteps]
    rfl

/-- **The number of instructions of a pass.** -/
theorem numInsns_insnLoop (fuel : ℕ) (s : LoopState) :
    let p := insnLoop e tb searchPc fuel s
    p.last.numInsns = s.numInsns + p.rounds.length := by
  refine insnLoop_induction (P := fun s p =>
    p.last.numInsns = s.numInsns + p.rounds.length) ?_ ?_ ?_ fuel s
  · intro s s' ending _ hnum _ _ _
    exact hnum
  · intro s dc names ops _
    rfl
  · intro s dc names ops p _ hp
    simp only [List.length_cons]
    rw [hp, afterInsn_numInsns]
    omega

end Loop

/-- A CPU without breakpoints on which every instruction is a branch, `blx`. -/
def branchEnv : TransEnv where
  isM := false
  breakpoints := []
  singlestepEnabled := false
  useIcount := false
  logTbOp := false
  disasArmInsn dc := .insn { dc with pc := dc.pc + 4, isJmp := .tbJump } ["BLX_reg"] 2
  disasThumbInsn dc := .insn { dc with pc := dc.pc + 2, isJmp := .tbJump } [] 2

/-- Arrays in which nothing has been recorded. -/
def emptyOpcMap : OpcMap := ⟨fun _ => 0, fun _ => 0, fun _ => false, fun _ => 0⟩

end VariabilityTestbed.Translate
