import VariabilityTestbed.Lib.LastWrites
import VariabilityTestbed.Variability.ConfigFile

/-!
# The settings of a variability file

A line of the file is taken apart into settings, each of them for one place in the configuration:
the error flag or the class of an instruction, a window or an error list. The parser applies the
settings that its chain of `else if` picks. What the configuration is in the end depends only on the
last setting for each place.

## The class of an instruction

A class line maps class names to lists of instructions. The name is looked up in the description of
the classes, and the `idx` found there is stored in the instruction's `uint8_t`; an `idx` of `-1` is
the same as not finding the class. No test relates an `idx`, or the number of classes, to the size
of the class arrays. `classes_in_range_iff` says what follows for a file that is accepted.
-/

namespace VariabilityTestbed.Variability

open QObject LastWrites Runs List Option

/-! ### Settings -/

/-- What a line can set. -/
inductive Place where
  | flag (i : Fin armInstructions.length)
  | type (i : Fin armInstructions.length)
  | pcWindow
  | icountWindow
  | errorRegs
  | memErrors
  deriving DecidableEq

/-- A place and what it is set to. -/
inductive Setting where
  | flag (i : Fin armInstructions.length) (errorneous : Bool)
  | type (i : Fin armInstructions.length) (instructionType : UInt8)
  | pcWindow (enabled : Bool) (info : Int32 × Int32)
  | icountWindow (enabled : Bool) (info : Int32 × Int32)
  | errorRegs (qlist : Option (List QObject))
  | memErrors (qlist : Option (List QObject))

def Setting.place : Setting → Place
  | .flag i _ => .flag i
  | .type i _ => .type i
  | .pcWindow .. => .pcWindow
  | .icountWindow .. => .icountWindow
  | .errorRegs _ => .errorRegs
  | .memErrors _ => .memErrors

/-- The configuration with one place set. -/
def Setting.apply (cfg : VarConfig) : Setting → VarConfig
  | .flag i b => { cfg with insnMap := cfg.insnMap.modify i fun e => { e with errorneous := b } }
  | .type i t =>
    { cfg with insnMap := cfg.insnMap.modify i fun e => { e with instructionType := t } }
  | .pcWindow enabled info => { cfg with errorPcEnabled := enabled, errorPcInfo := info }
  | .icountWindow enabled info =>
    { cfg with errorIcountEnabled := enabled, errorIcountInfo := info }
  | .errorRegs l => { cfg with errorInfoRegs := l }
  | .memErrors l => { cfg with errorInfoMemory := l }

/-- The settings in order. -/
def applyAll (cfg : VarConfig) (l : List Setting) : VarConfig := l.foldl Setting.apply cfg

/-- The setting that is in force. -/
def setting (cfg : VarConfig) : Place → Setting
  | .flag i => .flag i (cfg.insnMap[i.val]?.elim false InsnEntry.errorneous)
  | .type i => .type i (cfg.insnMap[i.val]?.elim 0 InsnEntry.instructionType)
  | .pcWindow => .pcWindow cfg.errorPcEnabled cfg.errorPcInfo
  | .icountWindow => .icountWindow cfg.errorIcountEnabled cfg.errorIcountInfo
  | .errorRegs => .errorRegs cfg.errorInfoRegs
  | .memErrors => .memErrors cfg.errorInfoMemory

/-- What no setting changes: the classes, and names and cycles of the instructions. -/
def fixedPart (m : InsnMap) : List (String × UInt8) := m.map fun e => (e.instruction, e.cycleCount)

structure Shaped (classes : QDict) (cfg : VarConfig) : Prop where
  classInfo : cfg.classInfo = classes
  total : cfg.totalInsnClasses = UInt8.ofNat (qdictSize classes)
  insns : fixedPart cfg.insnMap = fixedPart armInstructions

theorem shaped_classInfoInit (classes : QDict) : Shaped classes (classInfoInit classes) :=
  ⟨rfl, rfl, rfl⟩

variable {classes : QDict} {cfg cfg' : VarConfig}

theorem fixedPart_modify (m : InsnMap) (i : ℕ) (f : InsnEntry → InsnEntry)
    (hf : ∀ e, ((f e).instruction, (f e).cycleCount) = (e.instruction, e.cycleCount)) :
    fixedPart (m.modify i f) = fixedPart m := by
  refine ext_getElem? fun j => ?_
  rw [fixedPart, fixedPart, getElem?_map, getElem?_map, getElem?_modify]
  by_cases hij : i = j <;> cases m[j]? <;> simp_all

section

variable (h : Shaped classes cfg)
include h

theorem Shaped.apply (s : Setting) : Shaped classes (s.apply cfg) := by
  cases s with
  | flag i b =>
    refine ⟨h.classInfo, h.total, ?_⟩
    exact (fixedPart_modify cfg.insnMap i (fun e => { e with errorneous := b }) fun _ =>
      rfl).trans h.insns
  | type i t =>
    refine ⟨h.classInfo, h.total, ?_⟩
    exact (fixedPart_modify cfg.insnMap i (fun e => { e with instructionType := t }) fun _ =>
      rfl).trans h.insns
  | _ => exact ⟨h.classInfo, h.total, h.insns⟩

theorem Shaped.applyAll (l : List Setting) : Shaped classes (applyAll cfg l) := by
  induction l generalizing cfg with
  | nil => exact h
  | cons s l ih => exact ih (h.apply s)

theorem Shaped.length : cfg.insnMap.length = armInstructions.length := by
  simpa [fixedPart] using congrArg List.length h.insns

theorem Shaped.exists_entry (i : Fin armInstructions.length) : ∃ e, cfg.insnMap[i.val]? = some e :=
  ⟨_, getElem?_eq_getElem (i.isLt.trans_eq h.length.symm)⟩

/-- A setting is in force once it is applied, and the others stay. -/
theorem Shaped.setting_apply (s : Setting) :
    setting (s.apply cfg) = Function.update (setting cfg) s.place s := by
  funext c
  cases s with
  | flag i _ | type i _ =>
    obtain ⟨e, he⟩ := h.exists_entry i
    cases c with
    | flag j | type j =>
      by_cases hij : i = j
      · subst hij
        simp [Setting.apply, Setting.place, setting, he]
      · have hval : i.val ≠ j.val := fun hv => hij (Fin.ext hv)
        simp [Setting.apply, Setting.place, setting, hval, Ne.symm hij]
    | _ => rfl
  | _ => cases c <;> rfl

/-- **The last settings count.** -/
theorem Shaped.setting_applyAll (l : List Setting) :
    setting (Variability.applyAll cfg l) = after Setting.place (setting cfg) l := by
  induction l generalizing cfg with
  | nil => rfl
  | cons s l ih => exact (ih (h.apply s)).trans (by rw [h.setting_apply, after_cons])

end

/-! ### The settings of a line -/

section Collect

variable {α : Type*} {f : α → Option (List Setting)}

/-- What `f` gives for each element, one after the other. -/
def collect (f : α → Option (List Setting)) : List α → Option (List Setting)
  | [] => some []
  | a :: l => (f a).bind fun k => (collect f l).map (k ++ ·)

theorem collect_append (l k : List α) :
    collect f (l ++ k) = (collect f l).bind fun a => (collect f k).map (a ++ ·) := by
  induction l with
  | nil => simp [collect]
  | cons a l ih =>
    rw [cons_append, collect, collect, ih]
    cases f a <;> cases collect f l <;> cases collect f k <;> simp

theorem collect_singleton (a : α) : collect f [a] = f a := by
  cases hf : f a <;> simp [collect, hf]

/-- What is left of the collection of what is left of its parts. -/
theorem filter_collect {p : Setting → Bool} {u : α → List Setting} {l : List α} {ks : List Setting}
    (hf : ∀ a k, f a = some k → k.filter p = u a) (h : collect f l = some ks) :
    ks.filter p = l.flatMap u := by
  induction l generalizing ks with
  | nil =>
    cases h
    rfl
  | cons a l ih =>
    obtain ⟨k, hk, h⟩ := bind_eq_some_iff.mp h
    obtain ⟨k', hk', rfl⟩ := map_eq_some_iff.mp h
    rw [filter_append, hf a k hk, ih hk', flatMap_cons]

end Collect

/-- The instruction with a name. -/
def insnIndex (insn : String) : Option (Fin armInstructions.length) :=
  armInstructions.findFinIdx? fun e => e.instruction == insn

/-- An instruction in a list of instructions with or without errors. -/
def errorSettings (key insn : String) : Option (List Setting) :=
  (insnIndex insn).map fun i => [.flag i (key == "y")]

/-- An instruction in the list of a class. A class that is not described is passed over. -/
def classSettings (classes : QDict) (key insn : String) : Option (List Setting) :=
  (findClassIdx key classes).bind fun idx =>
    if idx = -1 then some [] else (insnIndex insn).map fun i => [.type i (truncIdx idx)]

/-- The settings of entries that are lists of instructions. -/
def entrySettings (g : String → String → Option (List Setting)) (d : QDict) :
    Option (List Setting) :=
  collect (fun e => e.2.toQList.bind (collect fun v => v.getStr.bind (g e.1))) d

/-- The setting of a window, between positive bounds. -/
def windowSettings (start stop : String) (window : Bool → Int32 × Int32 → Setting) (d : QDict) :
    Option (List Setting) :=
  (qdictGetInt d start).bind fun a => (qdictGetInt d stop).bind fun b =>
    if 0 < a.toInt32 ∧ 0 < b.toInt32 ∧ a.toInt32 < b.toInt32 then
      some [window true (a.toInt32, b.toInt32)]
    else none

/-- Both keys of the window for the program counter. -/
def hasPc (d : QDict) : Bool := qdictHaskey d "start_pc" && qdictHaskey d "end_pc"

/-- Both keys of the window for the instruction count. -/
def hasIcount (d : QDict) : Bool := qdictHaskey d "start_icount" && qdictHaskey d "end_icount"

/-- The setting of the window for the program counter. -/
def pcSettings : QDict → Option (List Setting) := windowSettings "start_pc" "end_pc" .pcWindow

/-- The setting of the window for the instruction count. -/
def icountSettings : QDict → Option (List Setting) :=
  windowSettings "start_icount" "end_icount" .icountWindow

/-- The settings that the chain of `else if` picks. -/
def branchSettings (classes d : QDict) : Option (List Setting) :=
  if qdictHaskey d "y" then entrySettings errorSettings d
  else if hasPc d then pcSettings d
  else if hasIcount d then icountSettings d
  else if qdictHaskey d "error_regs" then d.head?.map fun e => [.errorRegs e.2.toQList]
  else if qdictHaskey d "mem_errors" then d.head?.map fun e => [.memErrors e.2.toQList]
  else if d.isEmpty then none
  else entrySettings (classSettings classes) d

/-- The settings of a line of text. A line that is no JSON has none. -/
def lineSettings (qobjectFromJson : List UInt8 → Option QObject) (g : QDict → Option (List Setting))
    (line : List UInt8) : Option (List Setting) :=
  match qobjectFromJson (cString line) with
  | none => some []
  | some obj => obj.toQDict.bind g

/-! ### The parser applies the settings that are picked -/

theorem map_applyAll_applyAll (cfg : VarConfig) (k : List Setting) (o : Option (List Setting)) :
    o.map (applyAll (applyAll cfg k)) = (o.map (k ++ ·)).map (applyAll cfg) := by
  cases o with
  | none => rfl
  | some l => exact congrArg some foldl_append.symm

/-- What one round of a loop sets, the loop sets in turn. -/
theorem Shaped.foldlM {α : Type*} {step : VarConfig → α → Option VarConfig}
    {g : α → Option (List Setting)}
    (hstep : ∀ cfg a, Shaped classes cfg → step cfg a = (g a).map (Variability.applyAll cfg))
    (h : Shaped classes cfg) (l : List α) :
    l.foldlM step cfg = (collect g l).map (Variability.applyAll cfg) := by
  induction l generalizing cfg with
  | nil => rfl
  | cons a l ih =>
    rw [foldlM_cons, hstep cfg a h, collect]
    cases g a with
    | none => rfl
    | some k => exact (ih (h.applyAll k)).trans (map_applyAll_applyAll cfg k _)

theorem Shaped.getMapEntry_eq (h : Shaped classes cfg) (insn : String) :
    getMapEntry cfg.insnMap insn = (insnIndex insn).map Fin.val := by
  have key : ∀ m : InsnMap, getMapEntry m insn = (fixedPart m).findIdx? (·.1 == insn) := by
    intro m
    rw [fixedPart, findIdx?_map]
    rfl
  rw [key, h.insns, ← key]
  exact findIdx?_eq_map_findFinIdx?_val

theorem Shaped.updateInsnErrorInfo (h : Shaped classes cfg) (key insn : String) :
    updateInsnErrorInfo key cfg insn = (errorSettings key insn).map (Variability.applyAll cfg) := by
  rw [Variability.updateInsnErrorInfo, updateEntry, h.getMapEntry_eq, errorSettings]
  cases insnIndex insn <;> rfl

theorem Shaped.updateInsnClassInfo (h : Shaped classes cfg) (key insn : String) :
    updateInsnClassInfo key cfg insn =
      (classSettings classes key insn).map (Variability.applyAll cfg) := by
  obtain rfl := h.classInfo
  rw [Variability.updateInsnClassInfo, classSettings]
  cases findClassIdx key cfg.classInfo with
  | none => rfl
  | some idx =>
    simp only [bind, bind_some]
    split_ifs with hidx
    · rfl
    · rw [updateEntry, h.getMapEntry_eq]
      cases insnIndex insn <;> rfl

/-- The two nested loops, for either of the two updates. -/
theorem Shaped.forEntries {f : String → VarConfig → String → Option VarConfig}
    {g : String → String → Option (List Setting)}
    (hf : ∀ cfg key insn, Shaped classes cfg → f key cfg insn = (g key insn).map
      (Variability.applyAll cfg)) (h : Shaped classes cfg) (d : QDict) :
    forEntries f cfg d = (entrySettings g d).map (Variability.applyAll cfg) := by
  refine h.foldlM (fun cfg e h => ?_) d
  cases e.2.toQList with
  | none => rfl
  | some l =>
    refine h.foldlM (fun cfg v h => ?_) l
    cases v.getStr with
    | none => rfl
    | some insn => exact hf cfg e.1 insn h

/-- **One line.** -/
theorem Shaped.parseLine (h : Shaped classes cfg) (obj : QObject) :
    parseLine cfg (some obj) = (obj.toQDict.bind (branchSettings classes)).map
      (Variability.applyAll cfg) := by
  rw [Variability.parseLine]
  cases obj.toQDict with
  | none => rfl
  | some d =>
    simp only [bind, bind_some, branchSettings]
    rw [← hasPc, ← hasIcount]
    split_ifs
    · exact h.forEntries (fun _ key insn h => h.updateInsnErrorInfo key insn) d
    · rw [pcSettings, windowSettings]
      cases qdictGetInt d "start_pc" <;> cases qdictGetInt d "end_pc" <;> try rfl
      simp only [bind_some, errorInitPc]
      split_ifs <;> rfl
    · rw [icountSettings, windowSettings]
      cases qdictGetInt d "start_icount" <;> cases qdictGetInt d "end_icount" <;> try rfl
      simp only [bind_some, errorInitIcount]
      split_ifs <;> rfl
    · cases d.head? <;> rfl
    · cases d.head? <;> rfl
    · rfl
    · exact h.forEntries (fun _ key insn h => h.updateInsnClassInfo key insn) d

/-- The classes described by the first line. -/
def fileClasses (qobjectFromJson : List UInt8 → Option QObject) (stack file : List UInt8) : QDict :=
  ((qobjectFromJson (cString (fileLines stack file).1)).bind toQDict).getD []

section Parse

variable {qobjectFromJson : List UInt8 → Option QObject} {stack file : List UInt8}

/-- **All lines.** An accepted file leaves what its settings make of the configuration at program
start. -/
theorem exists_settings_of_parse (h : parseVariabilityFile qobjectFromJson stack file = some cfg) :
    ∃ ks, collect
    (lineSettings qobjectFromJson (branchSettings (fileClasses qobjectFromJson stack file)))
        (fileLines stack file).2 = some ks ∧
      cfg = applyAll (classInfoInit (fileClasses qobjectFromJson stack file)) ks ∧
      (qobjectFromJson (cString (fileLines stack file).1)).bind toQDict =
        some (fileClasses qobjectFromJson stack file) ∧
      0 < qdictSize (fileClasses qobjectFromJson stack file) := by
  simp only [parseVariabilityFile, bind, bind_eq_some_iff] at h
  obtain ⟨obj, hobj, d, hd, h⟩ := h
  have hdict : (qobjectFromJson (cString (fileLines stack file).1)).bind toQDict = some d := by
    rw [hobj]
    exact hd
  have hclasses : fileClasses qobjectFromJson stack file = d := by
    rw [fileClasses, hdict]
    rfl
  split_ifs at h with hsize
  rw [hclasses]
  have hlines :
      ∀ cfg line, Shaped d cfg → Variability.parseLine cfg (qobjectFromJson (cString line)) =
      (lineSettings qobjectFromJson (branchSettings d) line).map (applyAll cfg) := by
    intro cfg line hcfg
    rw [lineSettings]
    cases qobjectFromJson (cString line) with
    | none => rfl
    | some obj => exact hcfg.parseLine obj
  obtain ⟨ks, hks, rfl⟩ :=
    map_eq_some_iff.mp (((shaped_classInfoInit d).foldlM hlines _).symm.trans h)
  exact ⟨ks, hks, rfl, hdict, hsize⟩

theorem shaped_of_parse (h : parseVariabilityFile qobjectFromJson stack file = some cfg) :
    Shaped (fileClasses qobjectFromJson stack file) cfg := by
  obtain ⟨ks, -, rfl, -⟩ := exists_settings_of_parse h
  exact (shaped_classInfoInit _).applyAll ks

end Parse

/-! ### What is picked for a place -/

/-- What `u` gives for each instruction in the lists of a line. -/
def entriesAt {α : Type*} (u : String → String → List α) (d : QDict) : List α :=
  d.flatMap fun e => (e.2.toQList.getD []).flatMap fun v => v.getStr.toList.flatMap (u e.1)

/-- The assignment of an instruction to a class name: none when the name is not found. -/
def insnAssignment (classes : QDict) (className insn : String) : List (String × Int64) :=
  match findClassIdx className classes with
  | none => []
  | some idx => if idx = -1 then [] else [(insn, idx)]

/-- A line that has none of the keys with a meaning of their own. -/
def isClassLine (d : QDict) : Bool :=
  !qdictHaskey d "y" && !hasPc d && !hasIcount d && !qdictHaskey d "error_regs" &&
    !qdictHaskey d "mem_errors"

/-- Whether an instruction has errors, each time that a line lists it. -/
def flagsAt (i : Fin armInstructions.length) : QDict → List Setting :=
  entriesAt fun key insn => if insnIndex insn = some i then [.flag i (key == "y")] else []

/-- The class of an instruction, each time that it is assigned to one. -/
def typesAt (i : Fin armInstructions.length) (asg : List (String × Int64)) : List Setting :=
  (asg.filter fun a => getMapEntry armInstructions a.1 = some i).map fun a => .type i (truncIdx a.2)

/-- **What the parser takes from a line for a place.** It heeds an instruction in any list beside
`"y"`, a class only on a line without keys of other settings, the window for the program counter
only without `"y"`, and so on; and for an error list it takes the first entry of the line. -/
def pickedAt (classes d : QDict) : Place → List Setting
  | .flag i => if qdictHaskey d "y" then flagsAt i d else []
  | .type i => if isClassLine d then typesAt i (entriesAt (insnAssignment classes) d) else []
  | .pcWindow => if qdictHaskey d "y" || !hasPc d then [] else (pcSettings d).getD []
  | .icountWindow =>
    if qdictHaskey d "y" || hasPc d || !hasIcount d then [] else (icountSettings d).getD []
  | .errorRegs =>
    if qdictHaskey d "y" || hasPc d || hasIcount d || !qdictHaskey d "error_regs" then []
    else d.head?.toList.map fun e => .errorRegs e.2.toQList
  | .memErrors =>
    if qdictHaskey d "y" || hasPc d || hasIcount d || qdictHaskey d "error_regs" ||
        !qdictHaskey d "mem_errors" then []
    else d.head?.toList.map fun e => .memErrors e.2.toQList

section Places

variable {d : QDict} {ks : List Setting}

theorem filter_entrySettings {g : String → String → Option (List Setting)} {p : Setting → Bool}
    {u : String → String → List Setting}
    (hg : ∀ key insn k, g key insn = some k → k.filter p = u key insn)
    (h : entrySettings g d = some ks) : ks.filter p = entriesAt u d := by
  refine filter_collect (fun e k hk => ?_) h
  obtain ⟨l, hl, hk⟩ := bind_eq_some_iff.mp hk
  rw [hl]
  refine filter_collect (fun v k hk => ?_) hk
  obtain ⟨insn, hinsn, hk⟩ := bind_eq_some_iff.mp hk
  rw [hinsn, hg e.1 insn k hk]
  simp

theorem filter_errorSettings (h : entrySettings errorSettings d = some ks) (c : Place) :
    ks.filter (fun s => s.place = c) = match c with
      | .flag i => flagsAt i d
      | _ => [] := by
  cases c with
  | flag i =>
    refine filter_entrySettings (fun key insn k hk => ?_) h
    obtain ⟨j, hj, rfl⟩ := map_eq_some_iff.mp hk
    by_cases hij : j = i <;> simp [hj, Setting.place, hij]
  | _ =>
    refine (filter_entrySettings (u := fun _ _ => []) (fun key insn k hk => ?_) h).trans
      (by simp [entriesAt])
    obtain ⟨j, -, rfl⟩ := map_eq_some_iff.mp hk
    rfl

theorem filter_classSettings (h : entrySettings (classSettings classes) d = some ks) (c : Place) :
    ks.filter (fun s => s.place = c) = match c with
      | .type i => typesAt i (entriesAt (insnAssignment classes) d)
      | _ => [] := by
  have hg : ∀ key insn k, classSettings classes key insn = some k →
      k.filter (fun s => s.place = c) = match c with
        | .type i => typesAt i (insnAssignment classes key insn)
        | _ => [] := by
    intro key insn k hk
    obtain ⟨idx, hidx, hk⟩ := bind_eq_some_iff.mp hk
    split_ifs at hk with hnone
    · cases hk
      cases c <;> simp [insnAssignment, typesAt, hidx, hnone]
    · obtain ⟨j, hj, rfl⟩ := map_eq_some_iff.mp hk
      have hget : getMapEntry armInstructions insn = some j.val :=
        ((shaped_classInfoInit classes).getMapEntry_eq insn).trans (by rw [hj]; rfl)
      cases c with
      | type i => by_cases hij : j = i <;> simp [insnAssignment, typesAt, hidx, hnone, hget,
          Setting.place, hij, Fin.val_inj]
      | _ => rfl
  rw [filter_entrySettings hg h]
  cases c with
  | type i => simp [entriesAt, typesAt, filter_flatMap, map_flatMap]
  | _ => simp [entriesAt]

/-- A window is one setting. -/
theorem windowSettings_eq_some {start stop : String} {window : Bool → Int32 × Int32 → Setting}
    (h : windowSettings start stop window d = some ks) : ∃ info, ks = [window true info] := by
  simp only [windowSettings, bind_eq_some_iff] at h
  obtain ⟨a, -, b, -, h⟩ := h
  split_ifs at h
  exact ⟨_, (some.inj h).symm⟩

/-- **The settings that are picked, by place.** -/
theorem filter_branchSettings (h : branchSettings classes d = some ks) (c : Place) :
    ks.filter (fun s => s.place = c) = pickedAt classes d c := by
  rw [branchSettings] at h
  split_ifs at h with hy hpc hicount hregs hmem hempty
  · rw [filter_errorSettings h]
    cases c <;> simp [pickedAt, isClassLine, hy]
  · obtain ⟨info, rfl⟩ := windowSettings_eq_some h
    cases c <;> simp [pickedAt, isClassLine, hy, hpc, h, Setting.place]
  · obtain ⟨info, rfl⟩ := windowSettings_eq_some h
    cases c <;> simp [pickedAt, isClassLine, hy, hpc, hicount, h, Setting.place]
  · obtain ⟨e, he, rfl⟩ := map_eq_some_iff.mp h
    cases c <;> simp [pickedAt, isClassLine, hy, hpc, hicount, hregs, he, Setting.place]
  · obtain ⟨e, he, rfl⟩ := map_eq_some_iff.mp h
    cases c <;> simp [pickedAt, isClassLine, hy, hpc, hicount, hregs, hmem, he, Setting.place]
  · rw [filter_classSettings h]
    cases c <;> simp [pickedAt, isClassLine, hy, hpc, hicount, hregs, hmem]

end Places

/-- The dictionaries of the lines that have one. -/
def lineDicts (qobjectFromJson : List UInt8 → Option QObject) (lines : List (List UInt8)) :
    List QDict :=
  lines.flatMap fun line => ((qobjectFromJson (cString line)).bind toQDict).toList

section Lines

variable {qobjectFromJson : List UInt8 → Option QObject}

/-- What a place holds behind lines, from what it holds behind each of them. -/
theorem after_lines {g : QDict → Option (List Setting)} {u : QDict → Place → List Setting}
    (hg : ∀ d k, g d = some k → ∀ c, k.filter (fun s => s.place = c) = u d c)
    {lines : List (List UInt8)} {ks : List Setting}
    (h : collect (lineSettings qobjectFromJson g) lines = some ks) (f : Place → Setting)
    (c : Place) : after Setting.place f ks c =
      ((lineDicts qobjectFromJson lines).flatMap (u · c)).getLast?.getD (f c) := by
  rw [LastWrites.after, LastWrites.last, lineDicts, flatMap_assoc]
  rw [filter_collect (fun line k hk => ?_) h]
  rw [lineSettings] at hk
  cases hobj : qobjectFromJson (cString line) with
  | none =>
    rw [hobj] at hk
    cases hk
    rfl
  | some obj =>
    rw [hobj] at hk
    obtain ⟨d, hd, hk⟩ := bind_eq_some_iff.mp hk
    rw [bind_some, hd, hg d k hk]
    simp

end Lines

/-! ### The class of every instruction -/

/-- The assignments of one line. -/
def lineAssignments (classes d : QDict) : List (String × Int64) :=
  if isClassLine d then entriesAt (insnAssignment classes) d else []

/-- The assignments of the whole file, in order: which instruction gets which `idx`. -/
def fileAssignments (qobjectFromJson : List UInt8 → Option QObject) (stack file : List UInt8) :
    List (String × Int64) :=
  (lineDicts qobjectFromJson (fileLines stack file).2).flatMap
    (lineAssignments (fileClasses qobjectFromJson stack file))

/-- The last `idx` that is assigned to entry `j` of the instruction map. -/
def lastIdx (asg : List (String × Int64)) (j : ℕ) : Option Int64 :=
  ((asg.filter fun a => getMapEntry armInstructions a.1 = some j).getLast?).map Prod.snd

theorem getLast?_typesAt (i : Fin armInstructions.length) (asg : List (String × Int64)) :
    (typesAt i asg).getLast? = (lastIdx asg i).map fun idx => .type i (truncIdx idx) := by
  rw [typesAt, getLast?_map, lastIdx, Option.map_map]
  rfl

/-- **The class of every instruction**: the last `idx` assigned to it, cut down to a `uint8_t`, and
the built-in class where nothing is assigned. -/
theorem type_of_parse {qobjectFromJson : List UInt8 → Option QObject} {stack file : List UInt8}
    (h : parseVariabilityFile qobjectFromJson stack file = some cfg)
    (i : Fin armInstructions.length) :
    setting cfg (.type i) = .type i (((lastIdx (fileAssignments qobjectFromJson stack file) i).map
      truncIdx).getD armInstructions[i].instructionType) := by
  obtain ⟨ks, hks, rfl, -⟩ := exists_settings_of_parse h
  have hpicked : (lineDicts qobjectFromJson (fileLines stack file).2).flatMap
      (pickedAt (fileClasses qobjectFromJson stack file) · (.type i)) =
        typesAt i (fileAssignments qobjectFromJson stack file) := by
    rw [typesAt, fileAssignments, filter_flatMap, map_flatMap]
    refine congrArg (flatMap · _) (funext fun d => ?_)
    rw [pickedAt, lineAssignments]
    split_ifs <;> rfl
  rw [(shaped_classInfoInit _).setting_applyAll, after_lines (fun _ _ => filter_branchSettings) hks,
    hpicked, getLast?_typesAt]
  cases lastIdx (fileAssignments qobjectFromJson stack file) i with
  | none => simp [setting, classInfoInit]
  | some idx => rfl

/-! ### Indices in range -/

/-- Every index into the class arrays is in range: the index of each instruction's class, and each
index that the counter loops run over. -/
def ClassesInRange (cfg : VarConfig) : Prop :=
  (∀ e ∈ cfg.insnMap, 0 ≤ (e.instructionType.toNat : ℤ) - 1 ∧
    (e.instructionType.toNat : ℤ) - 1 < MAX_INSN_CLASSES) ∧
  ∀ i < cfg.totalInsnClasses.toNat, i < MAX_INSN_CLASSES

/-- A class whose index is in range. -/
def InRange (t : UInt8) : Prop := 1 ≤ t.toNat ∧ t.toNat ≤ MAX_INSN_CLASSES

theorem Shaped.classesInRange_iff (h : Shaped classes cfg) :
    ClassesInRange cfg ↔ (∀ i t, setting cfg (.type i) = .type i t → InRange t) ∧
      cfg.totalInsnClasses.toNat ≤ MAX_INSN_CLASSES := by
  refine and_congr ?_ ⟨fun h => ?_, fun h i hi => Nat.lt_of_lt_of_le hi h⟩
  · constructor
    · intro hall i t ht
      obtain ⟨e, he⟩ := h.exists_entry i
      have := hall e (mem_of_getElem? he)
      rw [setting, he, elim_some] at ht
      cases ht
      exact ⟨by omega, by omega⟩
    · intro hall e he
      obtain ⟨j, hj, rfl⟩ := mem_iff_getElem.mp he
      have := hall ⟨j, hj.trans_eq h.length⟩ cfg.insnMap[j].instructionType (by simp [setting, hj])
      unfold InRange at this
      exact ⟨by omega, by omega⟩
  · by_contra hlt
    exact absurd (h MAX_INSN_CLASSES (by omega)) (Nat.lt_irrefl _)

theorem inRange_builtin (i : Fin armInstructions.length) :
    InRange armInstructions[i].instructionType := by
  by_contra hout
  have := armInstructions_classSlot armInstructions[i] (getElem_mem _)
  rw [classSlot_eq_none.mpr hout] at this
  cases this

theorem truncIdx_toNat (idx : Int64) : ((truncIdx idx).toNat : ℤ) = idx.toInt % 256 := by
  have h : idx.toInt = (idx.toUInt64.toNat : ℤ).bmod (2 ^ 64) :=
    BitVec.toInt_eq_toNat_bmod idx.toBitVec
  rw [truncIdx, UInt64.toNat_toUInt8, h, Int.bmod_def]
  split <;> omega

theorem inRange_truncIdx (idx : Int64) :
    InRange (truncIdx idx) ↔ 1 ≤ idx.toInt % 256 ∧ idx.toInt % 256 ≤ MAX_INSN_CLASSES := by
  have := truncIdx_toNat idx
  rw [InRange]
  omega

/-- **The indices in range, for every accepted file.** They are in range just when the number of
classes, cut down to a byte, fits the class arrays, and so does the last `idx` given to each
instruction. -/
theorem classes_in_range_iff {qobjectFromJson : List UInt8 → Option QObject}
    {stack file : List UInt8} {cfg : VarConfig}
    (h : parseVariabilityFile qobjectFromJson stack file = some cfg) :
    ClassesInRange cfg ↔
      qdictSize (fileClasses qobjectFromJson stack file) % 256 ≤ MAX_INSN_CLASSES ∧
      ∀ j < armInstructions.length, ∀ idx,
        lastIdx (fileAssignments qobjectFromJson stack file) j = some idx →
          1 ≤ idx.toInt % 256 ∧ idx.toInt % 256 ≤ MAX_INSN_CLASSES := by
  have htotal : cfg.totalInsnClasses.toNat =
      qdictSize (fileClasses qobjectFromJson stack file) % 256 := by
    rw [(shaped_of_parse h).total]
    simp
  rw [(shaped_of_parse h).classesInRange_iff, htotal, and_comm]
  refine and_congr_right fun _ => ⟨fun hall j hj idx hidx => ?_, fun hall i t ht => ?_⟩
  · -- the assigned entry has the class cut down from `idx`
    refine (inRange_truncIdx idx).mp (hall ⟨j, hj⟩ _ ?_)
    rw [type_of_parse h, hidx]
    rfl
  · rw [type_of_parse h] at ht
    cases hidx : lastIdx (fileAssignments qobjectFromJson stack file) i with
    | none =>
      rw [hidx] at ht
      cases ht
      exact inRange_builtin i
    | some idx =>
      rw [hidx] at ht
      cases ht
      exact (inRange_truncIdx idx).mpr (hall i i.isLt idx hidx)

/-- The bytes of an ASCII text. -/
def bytes (text : String) : List UInt8 := text.toList.map fun c => UInt8.ofNat c.toNat

/-- A first line that describes one class, `a`, with the given `idx`. -/
def describeClass (idx : String) : List UInt8 :=
  bytes ("\x7b\"1\": \x7b\"class_name\": \"a\", \"idx\": " ++ idx ++ "\x7d\x7d\n")

/-- A line that puts `MUL` into class `a`. -/
def assignMul : List UInt8 := bytes "\x7b\"a\": [\"MUL\"]\x7d"

/-- The parser on the lines above, with the entries in the order of their buckets. -/
def sampleJson (text : List UInt8) : Option QObject :=
  let description (idx : Int64) :=
    qdict [("1", qdict [("idx", qint idx), ("class_name", qstring "a")])]
  if text = describeClass "7" then some (description 7)
  else if text = describeClass "1" then some (description 1)
  else if text = assignMul then some (qdict [("a", qlist [qstring "MUL"])])
  else none

/-- **An accepted file with an index out of range**: one class with `idx` 7, and `MUL` in it. -/
theorem class_seven_out_of_range :
    ∃ cfg, parseVariabilityFile sampleJson [] (describeClass "7" ++ assignMul) = some cfg ∧
      ¬ ClassesInRange cfg := by
  refine exists_of_map (fun cfg => (cfg.insnMap[27]?).map InsnEntry.instructionType) (some 7)
    (by decide +kernel) fun cfg _ htype hrange => ?_
  obtain ⟨e, he, hseven⟩ := map_eq_some_iff.mp htype
  have := (hrange.1 e (mem_of_getElem? he)).2
  rw [hseven] at this
  exact absurd this (by decide)

/-- The same file with `idx` 1 is in range. -/
theorem class_one_in_range :
    ∃ cfg, parseVariabilityFile sampleJson [] (describeClass "1" ++ assignMul) = some cfg ∧
      ClassesInRange cfg := by
  refine exists_of_isSome (by decide +kernel) fun cfg hcfg => ?_
  refine (classes_in_range_iff hcfg).mpr ⟨by decide +kernel, fun j _ idx hidx => ?_⟩
  have hasg : fileAssignments sampleJson [] (describeClass "1" ++ assignMul) = [("MUL", 1)] := by
    decide +kernel
  have hone : idx = 1 := by
    rw [hasg, lastIdx, filter_cons, filter_nil] at hidx
    split at hidx
    · exact (some.inj hidx).symm
    · cases hidx
  subst hone
  decide

end VariabilityTestbed.Variability
