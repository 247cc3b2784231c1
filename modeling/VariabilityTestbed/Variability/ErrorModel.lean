import Mathlib.Data.List.Basic
import VariabilityTestbed.QObject

/-!
# The error model

Before the code of a block is executed, `error_model` may spoil the registers that its instruction
reads. Which bits are stuck at zero is configured by a list of dictionaries, such as

> `{"reg_name": "r0", "error_type": 11, "extra_info": [0, 5]}`

The model keeps the pointers into lists as the rest of the list that they point to. Reading an array
out of its range, dereferencing `NULL` and `exit` are `none`.
-/

namespace VariabilityTestbed.ErrorModel

open QObject List

local instance neZero_eight : NeZero 8 := inferInstance

local instance neZero_sixteen : NeZero 16 := inferInstance

/-- `env->regs`. -/
abbrev Regs := Fin 16 → BitVec 32

/-- The fields of a `TranslationBlock` that the error model reads. The operands of the instruction
are pairs of a kind, where `0` is a register and `1` an immediate, and a value. -/
structure TbInsn where
  insnUnderExec : UInt16
  args : Fin 8 → ℤ

/-! ### The code -/

/-- `regnames`. -/
def regnames : List String :=
  ["r0", "r1", "r2", "r3", "r4", "r5", "r6", "r7", "r8", "r9", "r10", "r11", "r12",
    "r13", "r14", "pc"]

/-- `regnames[reg]`. -/
def regname (reg : ℤ) : Option String := if 0 ≤ reg then regnames[reg.toNat]? else none

/-- `isinsnbranch`: `BLX_imm`, `BLX_reg`, `BX` or `B`. -/
def isinsnbranch (insn : UInt16) : Bool := insn == 9 || insn == 10 || insn == 11 || insn == 59

/-- The loop that fills `input_regs`: the next index `k`, and the array. -/
def collectInputs (tb : TbInsn) : ℕ × List ℤ :=
  [((2 : Fin 8), (3 : Fin 8)), (4, 5), (6, 7)].foldl
    (fun (k, regs) (i, j) => if tb.args i = 0 then (k + 1, regs.set k (tb.args j)) else (k, regs))
    (0, [-1, 0, 0, 0])

/-- `input_regs`. The initialiser has a value for the first element only, and the others are
zero. -/
def inputRegs (tb : TbInsn) : List ℤ :=
  if isinsnbranch tb.insnUnderExec then [-1, 0, 0, 0] else (collectInputs tb).2

/-- The loop that searches the entry of a register: the entry where it ends. -/
def searchReg (reg : String) : List QObject → Option QDict
  | [] => none
  | obj :: rest => do
    let qdict ← toQDict obj
    if !qdictHaskey qdict "reg_name" then none
    else
      let name ← qdictGetStr qdict "reg_name"
      if reg ≠ name ∧ rest ≠ [] then searchReg reg rest else some qdict

/-- `env->regs[reg] &= ~(1 << bitno)`. -/
def clearBit (regs : Regs) (reg : ℤ) (bitno : ℤ) : Option Regs :=
  if h : (0 ≤ reg ∧ reg < 16) ∧ 0 ≤ bitno ∧ bitno < 32 then
    some (Function.update regs ⟨reg.toNat, by omega⟩
      (regs ⟨reg.toNat, by omega⟩ &&& ~~~(1#32 <<< bitno.toNat)))
  else none

/-- The loop over the bits of an entry, which goes on only behind the end of the list. -/
def clearBits (reg : ℤ) (regs : Regs) : List QObject → Option Regs
  | [] => some regs
  | value :: rest => do
    let bitno ← getInt value
    let regs ← clearBit regs reg bitno.toInt
    if rest = [] then clearBits reg regs rest else some regs

/-- `qdict_get_qlist`. -/
def qdictGetQlist (d : QDict) (key : String) : Option (List QObject) :=
  (qdictGet d key).bind toQList

/-- The errors of one input register. The type of an error has two digits: `REG_READ_ERROR` and
`STUCK_AT_ZERO`. -/
def spoilInput (errorInfoRegs : List QObject) (regs : Regs) (input : ℤ) : Option Regs := do
  let reg ← regname input
  let qdict ← searchReg reg errorInfoRegs
  let name ← qdictGetStr qdict "reg_name"
  if reg = name then
    let errorType ← qdictGetInt qdict "error_type"
    if errorType = 11 then
      let extinfolist ← qdictGetQlist qdict "extra_info"
      clearBits input regs extinfolist
    else some regs
  else some regs

/-- `error_model`, with the registers that it leaves. The configured list is `NULL` before it is
set. What it prints is left out, with the read of `insn_map[insn_under_exec]` for it. -/
def errorModel (errorInfoRegs : Option (List QObject)) (regs : Regs) (tb : TbInsn) :
    Option (Regs × ℤ) := do
  let regs ←
    match errorInfoRegs with
    | none => some regs
    | some l => if l.isEmpty then (inputRegs tb).foldlM (spoilInput l) regs else some regs
  return (regs, -1)

/-! ### What is configured -/

/-- An entry of the list: the name of a register, and numbers of bits. -/
structure RegError where
  reg : Fin 16
  errorType : Int64
  extraInfo : List (Fin 32)

/-- The name of a register. -/
def nameOf (reg : Fin 16) : String := regnames.get reg

/-- The dictionary of an entry. -/
def RegError.toQObject (e : RegError) : QObject :=
  .qdict [("reg_name", .qstring (nameOf e.reg)), ("error_type", .qint e.errorType),
    ("extra_info", .qlist (e.extraInfo.map fun b => .qint (Int64.ofNat b)))]

/-- The input registers of an instruction. -/
def IsInput (tb : TbInsn) (reg : Fin 16) : Prop :=
  tb.args 2 = 0 ∧ tb.args 3 = reg ∨ tb.args 4 = 0 ∧ tb.args 5 = reg ∨ tb.args 6 = 0 ∧
    tb.args 7 = reg

instance (tb : TbInsn) (reg : Fin 16) : Decidable (IsInput tb reg) :=
  inferInstanceAs (Decidable (_ ∨ _))

/-- A bit of a register is stuck at zero. -/
def Stuck (errors : List RegError) (reg : Fin 16) (bit : Fin 32) : Prop :=
  ∃ e ∈ errors, e.reg = reg ∧ e.errorType = 11 ∧ bit ∈ e.extraInfo

instance (errors : List RegError) (reg : Fin 16) (bit : Fin 32) :
    Decidable (Stuck errors reg bit) :=
  inferInstanceAs (Decidable (∃ e ∈ errors, _))

/-- The registers are as configured: the stuck bits of the input registers are cleared, and nothing
else has changed. -/
def StuckAtZero (errors : List RegError) (tb : TbInsn) (regs regs' : Regs) : Prop :=
  ∀ reg (bit : Fin 32),
    (regs' reg).getLsb bit = ((regs reg).getLsb bit && !decide (IsInput tb reg ∧
    Stuck errors reg bit))

/-! ### The code against the configuration -/

/-- Nothing is done if there are entries. -/
theorem errorModel_of_ne_nil {l : List QObject} (hl : l ≠ []) (regs : Regs) (tb : TbInsn) :
    errorModel (some l) regs tb = some (regs, -1) := by
  rw [errorModel, isEmpty_eq_false_iff.mpr hl]
  rfl

/-- The head of an empty list is read. -/
theorem errorModel_nil (regs : Regs) (tb : TbInsn) : errorModel (some []) regs tb = none := by
  have hspoil : ∀ input, spoilInput [] regs input = none := fun input => by
    rw [spoilInput]
    cases regname input with
    | none => rfl
    | some reg => rfl
  have hinputs : inputRegs tb ≠ [] := by
    simp only [inputRegs, collectInputs, foldl_cons, foldl_nil]
    split_ifs <;> simp
  obtain ⟨input, rest, heq⟩ := exists_cons_of_ne_nil hinputs
  simp [errorModel, heq, foldlM_cons, hspoil]

/-- Unchanged registers are as configured if every stuck bit is zero anyway. -/
theorem stuckAtZero_self_iff (errors : List RegError) (regs : Regs) (tb : TbInsn) :
    StuckAtZero errors tb regs regs ↔
      ∀ reg, IsInput tb reg → ∀ bit, Stuck errors reg bit → (regs reg).getLsb bit = false := by
  constructor
  · intro hself reg hinput bit hstuck
    have hbit := hself reg bit
    rwa [decide_eq_true ⟨hinput, hstuck⟩, Bool.not_true, Bool.and_false] at hbit
  · intro hzero reg bit
    by_cases h : IsInput tb reg ∧ Stuck errors reg bit
    · rw [hzero reg h.1 bit h.2, Bool.false_and]
    · rw [decide_eq_false h, Bool.not_false, Bool.and_true]

/-- **The error model does what is configured** only if there are entries, and no stuck bit of an
input register is set. -/
theorem errorModel_stuckAtZero_iff (errors : List RegError) (regs : Regs) (tb : TbInsn) :
    (∃ regs' result, errorModel (some (errors.map RegError.toQObject)) regs tb =
      some (regs', result) ∧
        StuckAtZero errors tb regs regs') ↔
      errors ≠ [] ∧
        ∀ reg, IsInput tb reg → ∀ bit, Stuck errors reg bit → (regs reg).getLsb bit = false := by
  rw [← stuckAtZero_self_iff]
  rcases eq_or_ne errors [] with rfl | hne
  · rw [map_nil, errorModel_nil]
    exact iff_of_false (fun ⟨_, _, h, _⟩ => nomatch h) fun h => h.1 rfl
  · rw [errorModel_of_ne_nil (by simpa using hne)]
    constructor
    · rintro ⟨regs', result, heq, hstuck⟩
      obtain ⟨rfl, -⟩ := Prod.mk.injEq .. ▸ Option.some.inj heq
      exact ⟨hne, hstuck⟩
    · exact fun h => ⟨regs, -1, rfl, h.2⟩

/-- An instruction that writes `r0` and reads `r1`. -/
def movInsn : TbInsn := ⟨0, fun i => if i = 3 then 1 else if i ≤ 2 then 0 else -1⟩

/-- Bit 5 of `r1` is stuck at zero. -/
def stuckBit : RegError := ⟨1, 11, [5]⟩

/-- Bit 5 stays set; and with no entry at all, the head of the list is read. -/
theorem stuckBit_not_cleared :
    (∃ regs', errorModel (some [stuckBit.toQObject]) (fun _ => 0xff) movInsn = some (regs', -1) ∧
        ¬StuckAtZero [stuckBit] movInsn (fun _ => 0xff) regs') ∧
      errorModel (some []) (fun _ => 0xff) movInsn = none := by
  refine ⟨⟨_, errorModel_of_ne_nil (cons_ne_nil _ _) _ _, fun h => ?_⟩, errorModel_nil _ _⟩
  exact absurd ((stuckAtZero_self_iff _ _ _).mp h 1 (by decide) 5 (by decide)) (by decide)

end VariabilityTestbed.ErrorModel
