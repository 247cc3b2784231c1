import VariabilityTestbed.Variability.Counters

/-!
# The instruction map

`arm_instructions` lists the instructions whose cycles are counted, each with a built-in class. The
class of an entry can be changed by the configuration file, its cycle count is filled in when the
board is initialised.

While a block is translated, every decoded instruction is looked up by name and its cycles are
added to the counter of its class in the block. `charge` does that for a list of names.
`charge_eq_some` is the only fact about it that is used elsewhere: it adds, class by class, the
cycles of the instructions, and it is defined unless an instruction with cycles is in a class
outside the arrays.
-/

namespace VariabilityTestbed.Variability

open Option

/-- `struct variability_instruction_set`. -/
structure InsnEntry where
  instruction : String
  cycleCount : UInt8
  instructionType : UInt8
  errorneous : Bool
  deriving DecidableEq, Repr

/-- The array `insn_map` points to. -/
abbrev InsnMap : Type := List InsnEntry

/-- Data processing instructions. -/
def DATA_PROC_ISN : UInt8 := 1
/-- Branch instructions. -/
def BRANCH_ISN : UInt8 := 2
/-- Multiply instructions. -/
def MULTIPLY_ISN : UInt8 := 3
/-- Load and store instructions. -/
def LDST_ISN : UInt8 := 4
/-- Miscellaneous instructions. -/
def MISC_ISN : UInt8 := 5
/-- Loads and stores of several registers. -/
def EXTENDED_LDST_ISN : UInt8 := 6

/-- `arm_instructions`, as it is compiled in: without cycles, and nothing is erroneous. -/
def armInstructions : InsnMap :=
  [("ADC_reg", DATA_PROC_ISN), ("ADD_reg", DATA_PROC_ISN), ("ADD_imm", DATA_PROC_ISN),
   ("SUB_reg", DATA_PROC_ISN), ("SUB_imm", DATA_PROC_ISN), ("MOV_imm", DATA_PROC_ISN),
   ("MOV_reg", DATA_PROC_ISN), ("CMP_imm", DATA_PROC_ISN), ("LDR_imm_lit", LDST_ISN),
   ("BLX_imm", BRANCH_ISN), ("BLX_reg", BRANCH_ISN), ("BX", BRANCH_ISN), ("BFC", DATA_PROC_ISN),
   ("BFI", DATA_PROC_ISN), ("CMP_reg", DATA_PROC_ISN), ("NEG_reg", DATA_PROC_ISN),
   ("AND_reg", DATA_PROC_ISN), ("EOR_reg", DATA_PROC_ISN), ("LSL_reg", DATA_PROC_ISN),
   ("LSR_reg", DATA_PROC_ISN), ("ASR_reg", DATA_PROC_ISN), ("ROR_reg", DATA_PROC_ISN),
   ("TST_reg", DATA_PROC_ISN), ("CMN_reg", DATA_PROC_ISN), ("ORR_reg", DATA_PROC_ISN),
   ("ORN_reg", DATA_PROC_ISN), ("ORNS_reg", DATA_PROC_ISN), ("MUL", MULTIPLY_ISN),
   ("MVN_reg", DATA_PROC_ISN), ("BIC_reg", DATA_PROC_ISN), ("BIC_imm", DATA_PROC_ISN),
   ("LDR_reg", LDST_ISN), ("STR_reg", LDST_ISN), ("STRH_reg", LDST_ISN), ("STRB_reg", LDST_ISN),
   ("LDRH_reg", LDST_ISN), ("LDRB_reg", LDST_ISN), ("LDRSH_reg", LDST_ISN), ("LDRSB_reg", LDST_ISN),
   ("LDR_imm_off", LDST_ISN), ("STR_imm_off", LDST_ISN), ("LDRB_imm_off", LDST_ISN),
   ("STRB_imm_off", LDST_ISN), ("LDRH_imm_off", LDST_ISN), ("STRH_imm_off", LDST_ISN),
   ("POP", LDST_ISN), ("PUSH", LDST_ISN), ("UXTH", MISC_ISN), ("UXTB", MISC_ISN),
   ("SXTH", MISC_ISN), ("SXTB", MISC_ISN), ("BKPT", MISC_ISN), ("REV", DATA_PROC_ISN),
   ("CPS", MISC_ISN), ("LDRM", EXTENDED_LDST_ISN), ("STM", EXTENDED_LDST_ISN), ("SVC", MISC_ISN),
   ("SWI", MISC_ISN), ("CBZ", BRANCH_ISN), ("B", BRANCH_ISN), ("CBNZ", BRANCH_ISN),
   ("LDRD_lit", LDST_ISN), ("LDRD_imm", LDST_ISN), ("STRD_imm", LDST_ISN), ("TBH", BRANCH_ISN),
   ("TBB", BRANCH_ISN), ("LDREXB", LDST_ISN), ("LDREXH", LDST_ISN), ("STREX", LDST_ISN),
   ("STREXB", LDST_ISN), ("STREXH", LDST_ISN), ("SRS", MISC_ISN), ("RFE", MISC_ISN),
   ("PKHTB", DATA_PROC_ISN), ("PKHBT", DATA_PROC_ISN), ("SXTB16", MISC_ISN), ("UXTB16", MISC_ISN),
   ("QADD", DATA_PROC_ISN), ("QSUB", DATA_PROC_ISN), ("RBIT", DATA_PROC_ISN),
   ("REV16", DATA_PROC_ISN), ("REVSH", DATA_PROC_ISN), ("SEL", DATA_PROC_ISN),
   ("CLZ", DATA_PROC_ISN), ("LDREX", LDST_ISN), ("SMLALD", MULTIPLY_ISN), ("SMMUL", MULTIPLY_ISN),
   ("SMMLA", MULTIPLY_ISN), ("SMMLS", MULTIPLY_ISN), ("SDIV", MULTIPLY_ISN), ("UDIV", MULTIPLY_ISN),
   ("UMAAL", MULTIPLY_ISN), ("UMULL", MULTIPLY_ISN), ("UMLAL", MULTIPLY_ISN),
   ("SMULL", MULTIPLY_ISN), ("SMLAL", MULTIPLY_ISN), ("BL", BRANCH_ISN), ("MSR", MISC_ISN),
   ("CLREX", MISC_ISN), ("MRS", MISC_ISN), ("UBFX", DATA_PROC_ISN), ("SBFX", DATA_PROC_ISN),
   ("SSAT", DATA_PROC_ISN), ("SSAT16", DATA_PROC_ISN), ("USAT", DATA_PROC_ISN),
   ("USAT16", DATA_PROC_ISN), ("MOVT", DATA_PROC_ISN), ("MOVW", DATA_PROC_ISN),
   ("RSB_imm", DATA_PROC_ISN), ("RSB_reg", DATA_PROC_ISN), ("SBC_imm", DATA_PROC_ISN),
   ("SBC_reg", DATA_PROC_ISN), ("RSC", DATA_PROC_ISN), ("QDADD", DATA_PROC_ISN)].map
    fun (instruction, type) => ⟨instruction, 0, type, false⟩

/-- Every built-in class has an entry in the class arrays. -/
theorem armInstructions_classSlot :
    ∀ e ∈ armInstructions, (classSlot e.instructionType).isSome := by
  decide

/-- The index that `get_map_entry` finds: the first entry with the name. -/
def getMapEntry (m : InsnMap) (instruction : String) : Option ℕ :=
  m.findIdx? fun e => e.instruction == instruction

/-- The entry with that index. A map that was never initialised (`NULL`) has none. -/
def mapEntry (insnMap : Option InsnMap) (instruction : String) : Option InsnEntry :=
  insnMap.bind fun m => (getMapEntry m instruction).bind fun i => m[i]?

/-- `increment_cycle_counter` on the class counters of a block. Instructions without cycles are
skipped before their class is looked at. -/
def incrementCycleCounter (cc : ClassArray) (s : InsnEntry) : Option ClassArray :=
  if s.cycleCount = 0 then some cc
  else (classSlot s.instructionType).map fun i =>
    Function.update cc i (cc i + s.cycleCount.toUInt64)

/-- `qemu-variability.h`: `MAX_INSTRUCTIONS`. -/
def MAX_INSTRUCTIONS : UInt16 := 65535

/-- `variability_counters_manip`: charge a block for one instruction and return the index of the
instruction. Every name it is called with is in the map, so a name that is not has no result. -/
def variabilityCountersManip (insnMap : Option InsnMap) (cc : ClassArray) (instruction : String) :
    Option (ClassArray × UInt16) :=
  match insnMap with
  | none => some (cc, MAX_INSTRUCTIONS)
  | some m => do
    let i ← getMapEntry m instruction
    let s ← m[i]?
    let cc ← incrementCycleCounter cc s
    return (cc, i.toUInt16)

/-- Charge a block for a list of instructions, in order. -/
def charge (insnMap : Option InsnMap) : ClassArray → List String → Option ClassArray
  | cc, [] => some cc
  | cc, name :: names =>
      (variabilityCountersManip insnMap cc name).bind fun r => charge insnMap r.1 names

/-! ### The cycles of a list of instructions -/

/-- The cycles of one instruction that belong to the class of entry `i`. -/
def InsnEntry.cyclesIn (i : Fin MAX_INSN_CLASSES) (e : InsnEntry) : ℕ :=
  if classSlot e.instructionType = some i then e.cycleCount.toNat else 0

/-- The cycles of the instructions `names` that belong to the class of entry `i`. -/
def cyclesIn (insnMap : Option InsnMap) (names : List String) (i : Fin MAX_INSN_CLASSES) : ℕ :=
  (names.map fun name => ((mapEntry insnMap name).map (InsnEntry.cyclesIn i)).getD 0).sum

/-- The cycles of the instructions `names`, in whatever class. -/
def cyclesOf (insnMap : Option InsnMap) (names : List String) : ℕ :=
  (names.map fun name => ((mapEntry insnMap name).map fun e => e.cycleCount.toNat).getD 0).sum

@[simp] theorem cyclesIn_nil (insnMap : Option InsnMap) (i : Fin MAX_INSN_CLASSES) :
    cyclesIn insnMap [] i = 0 := rfl

theorem cyclesIn_append (insnMap : Option InsnMap) (p q : List String) (i : Fin MAX_INSN_CLASSES) :
    cyclesIn insnMap (p ++ q) i = cyclesIn insnMap p i + cyclesIn insnMap q i := by
  simp [cyclesIn]

theorem incrementCycleCounter_eq_some {cc cc' : ClassArray} {e : InsnEntry}
    (h : incrementCycleCounter cc e = some cc') (i : Fin MAX_INSN_CLASSES) :
    cc' i = cc i + UInt64.ofNat (e.cyclesIn i) := by
  rw [incrementCycleCounter] at h
  split at h
  · rename_i hzero
    cases h
    simp [InsnEntry.cyclesIn, hzero]
  · obtain ⟨j, hj, rfl⟩ := map_eq_some_iff.mp h
    rcases eq_or_ne i j with rfl | hij
    · simp [InsnEntry.cyclesIn, hj]
    · simp [InsnEntry.cyclesIn, hj, hij, Ne.symm hij]

theorem variabilityCountersManip_eq_some {insnMap : Option InsnMap} {cc : ClassArray}
    {name : String} {r : ClassArray × UInt16}
    (h : variabilityCountersManip insnMap cc name = some r) (i : Fin MAX_INSN_CLASSES) :
    r.1 i = cc i + UInt64.ofNat (cyclesIn insnMap [name] i) := by
  cases insnMap with
  | none =>
    cases h
    simp [cyclesIn, mapEntry]
  | some m =>
    simp only [variabilityCountersManip, bind, bind_eq_some_iff] at h
    obtain ⟨j, hj, e, he, cc', hinc, hr⟩ := h
    cases hr
    change cc' i = _
    rw [incrementCycleCounter_eq_some hinc i]
    simp [cyclesIn, mapEntry, hj, he]

/-- **Charging adds up.** -/
theorem charge_eq_some {insnMap : Option InsnMap} {names : List String} {cc cc' : ClassArray}
    (h : charge insnMap cc names = some cc') (i : Fin MAX_INSN_CLASSES) :
    cc' i = cc i + UInt64.ofNat (cyclesIn insnMap names i) := by
  induction names generalizing cc with
  | nil =>
    cases h
    simp
  | cons name names ih =>
    obtain ⟨r, hr, hrest⟩ := bind_eq_some_iff.mp h
    rw [ih hrest, variabilityCountersManip_eq_some hr i,
      show name :: names = [name] ++ names from rfl, cyclesIn_append, UInt64.ofNat_add]
    grind

/-- An instruction that can be charged: it takes no cycles, or its class has an entry. -/
def InsnEntry.Chargeable (e : InsnEntry) : Prop :=
  e.cycleCount = 0 ∨ (classSlot e.instructionType).isSome

/-- Instructions that were charged could be. -/
theorem chargeable_of_charge {m : InsnMap} {names : List String} {cc cc' : ClassArray}
    (h : charge (some m) cc names = some cc') :
    ∀ name ∈ names, ∀ e, mapEntry (some m) name = some e → e.Chargeable := by
  induction names generalizing cc with
  | nil => exact nofun
  | cons name names ih =>
    obtain ⟨r, hr, hrest⟩ := bind_eq_some_iff.mp h
    intro name' hname' e he
    rcases List.mem_cons.mp hname' with rfl | hname'
    · simp only [variabilityCountersManip, bind, bind_eq_some_iff] at hr
      obtain ⟨j, hj, e', he', cc₁, hinc, -⟩ := hr
      obtain rfl : e' = e := by
        simp only [mapEntry, bind_some, hj, he', some.injEq] at he
        exact he
      rw [incrementCycleCounter] at hinc
      split at hinc
      · rename_i hzero
        exact .inl hzero
      · obtain ⟨i, hi, -⟩ := map_eq_some_iff.mp hinc
        exact .inr (by rw [hi]; rfl)
    · exact ih hrest name' hname' e he

end VariabilityTestbed.Variability
