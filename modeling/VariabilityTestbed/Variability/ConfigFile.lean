import VariabilityTestbed.Lib.Runs
import VariabilityTestbed.QObject
import VariabilityTestbed.Variability.InsnMap

/-!
# The variability file

`parse_variability_file` reads a file of JSON objects, one on each line. The first line describes
the instruction classes; the later ones put instructions into classes, mark instructions as
erroneous, set the two error windows or list register and memory errors.

The JSON parser is a parameter: `qobjectFromJson` takes the text of a line to an object, or to
`none` where the parser returns `NULL`. Nothing is assumed about it.

## Reading lines

`line` is a buffer of 2000 bytes that the loop reuses. `fgets` leaves it alone when it meets the
end of the file before any character, and the loop does not look at the result of `fgets`. A file
that ends with a newline has its last line processed twice.
-/

namespace VariabilityTestbed.Variability

open QObject Runs List Option

/-! ### The code -/

/-- What a variability file sets up. -/
structure VarConfig where
  classInfo : QDict
  totalInsnClasses : UInt8
  insnMap : InsnMap
  errorPcEnabled : Bool
  errorPcInfo : Int32 × Int32
  errorIcountEnabled : Bool
  errorIcountInfo : Int32 × Int32
  errorInfoRegs : Option (List QObject)
  errorInfoMemory : Option (List QObject)

/-- `class_info_init`, after `init_instruction_set_map` at program start. The size of the
dictionary is cut down to a `uint8_t`. -/
def classInfoInit (d : QDict) : VarConfig where
  classInfo := d
  totalInsnClasses := UInt8.ofNat (qdictSize d)
  insnMap := armInstructions
  errorPcEnabled := false
  errorPcInfo := (0, 0)
  errorIcountEnabled := false
  errorIcountInfo := (0, 0)
  errorInfoRegs := none
  errorInfoMemory := none

/-- The loop of `update_insn_class_info` through the classes: the `idx` of the first class with
the name, or `-1`. -/
def findClassIdx (className : String) : QDict → Option Int64
  | [] => some (-1)
  | (_, temp) :: rest => do
    let pdict ← temp.toQDict
    let idx ← qdictGetInt pdict "idx"
    let str ← qdictGetStr pdict "class_name"
    if str == className then return idx else findClassIdx className rest

/-- Change one entry of the instruction map, found by name. -/
def updateEntry (m : InsnMap) (insn : String) (f : InsnEntry → InsnEntry) : Option InsnMap :=
  (getMapEntry m insn).map fun i => m.modify i f

/-- The assignment of an `int64_t` to the `uint8_t` field `instruction_type`. -/
def truncIdx (idx : Int64) : UInt8 := idx.toUInt64.toUInt8

/-- `update_insn_class_info`. -/
def updateInsnClassInfo (className : String) (cfg : VarConfig) (insn : String) :
    Option VarConfig := do
  let idx ← findClassIdx className cfg.classInfo
  if idx = -1 then return cfg
  else
    let m ← updateEntry cfg.insnMap insn fun e => { e with instructionType := truncIdx idx }
    return { cfg with insnMap := m }

/-- `update_insn_error_info`. -/
def updateInsnErrorInfo (boolstr : String) (cfg : VarConfig) (insn : String) :
    Option VarConfig := do
  let m ← updateEntry cfg.insnMap insn fun e => { e with errorneous := boolstr == "y" }
  return { cfg with insnMap := m }

/-- `error_init_pc`, with its assertions. -/
def errorInitPc (cfg : VarConfig) (startPc endPc : Int32) : Option VarConfig :=
  if 0 < startPc ∧ 0 < endPc ∧ startPc < endPc then
    some { cfg with errorPcEnabled := true, errorPcInfo := (startPc, endPc) }
  else none

/-- `error_init_icount`, with its assertions. -/
def errorInitIcount (cfg : VarConfig) (startIcount endIcount : Int32) : Option VarConfig :=
  if 0 < startIcount ∧ 0 < endIcount ∧ startIcount < endIcount then
    some { cfg with errorIcountEnabled := true, errorIcountInfo := (startIcount, endIcount) }
  else none

/-- The loop over the instructions in one list. -/
def forInsns (f : VarConfig → String → Option VarConfig) :
    VarConfig → List QObject → Option VarConfig :=
  foldlM fun cfg v => v.getStr.bind (f cfg)

/-- The loop over the entries of a line, each of them a list of instructions. -/
def forEntries (f : String → VarConfig → String → Option VarConfig) :
    VarConfig → QDict → Option VarConfig :=
  foldlM fun cfg e => e.2.toQList.bind (forInsns (f e.1) cfg)

/-- What the loop of `parse_variability_file` does with the object of one line. The last branch is
a `do … while` loop, which an empty dictionary does not survive. -/
def parseLine (cfg : VarConfig) (qobj : Option QObject) : Option VarConfig :=
  match qobj with
  | none => some cfg
  | some obj => do
    let qdict ← obj.toQDict
    if qdictHaskey qdict "y" then forEntries updateInsnErrorInfo cfg qdict
    else if qdictHaskey qdict "start_pc" && qdictHaskey qdict "end_pc" then
      let startPc ← qdictGetInt qdict "start_pc"
      let endPc ← qdictGetInt qdict "end_pc"
      errorInitPc cfg startPc.toInt32 endPc.toInt32
    else if qdictHaskey qdict "start_icount" && qdictHaskey qdict "end_icount" then
      let startIcount ← qdictGetInt qdict "start_icount"
      let endIcount ← qdictGetInt qdict "end_icount"
      errorInitIcount cfg startIcount.toInt32 endIcount.toInt32
    else if qdictHaskey qdict "error_regs" then
      let entry ← qdict.head?
      return { cfg with errorInfoRegs := entry.2.toQList }
    else if qdictHaskey qdict "mem_errors" then
      let entry ← qdict.head?
      return { cfg with errorInfoMemory := entry.2.toQList }
    else if qdict.isEmpty then none
    else forEntries updateInsnClassInfo cfg qdict

/-- `fgets` of at most `size` characters: the characters read, the rest of the file, and whether
the end of the file was met. -/
def fgets : ℕ → List UInt8 → List UInt8 × List UInt8 × Bool
  | 0, file => ([], file, false)
  | _ + 1, [] => ([], [], true)
  | size + 1, c :: file =>
    if c = 10 then ([c], file, false)
    else
      let (line, rest, eof) := fgets size file
      (c :: line, rest, eof)

/-- The contents of `line` after a call of `fgets`: unchanged when it returned `NULL`. -/
def lineAfter (line : List UInt8) (r : List UInt8 × List UInt8 × Bool) : List UInt8 :=
  if r.1.isEmpty && r.2.2 then line else r.1

/-- The contents of `line` in each round of `while (!feof(fp))`. A round that does not meet the end
of the file reads at least one character, so there are at most `file.length + 1` of them. -/
def laterLines : ℕ → List UInt8 → List UInt8 → Bool → List (List UInt8)
  | 0, _, _, _ => []
  | _ + 1, _, _, true => []
  | fuel + 1, line, file, false =>
    let r := fgets 1999 file
    lineAfter line r :: laterLines fuel (lineAfter line r) r.2.1 r.2.2

/-- The string in a buffer ends at the first zero. -/
def cString (line : List UInt8) : List UInt8 := line.takeWhile (· ≠ 0)

/-- The first line of the file, and the lines that the loop sees. `stack` is the string in the
uninitialised buffer. -/
def fileLines (stack file : List UInt8) : List UInt8 × List (List UInt8) :=
  let r := fgets 1999 file
  (lineAfter stack r, laterLines (file.length + 1) (lineAfter stack r) r.2.1 r.2.2)

/-- The loop over the later lines. -/
def parseLines (qobjectFromJson : List UInt8 → Option QObject) :
    VarConfig → List (List UInt8) → Option VarConfig :=
  foldlM fun cfg line => parseLine cfg (qobjectFromJson (cString line))

/-- `parse_variability_file`. -/
def parseVariabilityFile (qobjectFromJson : List UInt8 → Option QObject)
    (stack file : List UInt8) : Option VarConfig := do
  let qobj ← qobjectFromJson (cString (fileLines stack file).1)
  let qdict ← qobj.toQDict
  if 0 < qdictSize qdict then
    parseLines qobjectFromJson (classInfoInit qdict) (fileLines stack file).2
  else none

end VariabilityTestbed.Variability
