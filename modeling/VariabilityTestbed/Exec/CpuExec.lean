import VariabilityTestbed.Exec.JmpLists
import VariabilityTestbed.Translate.CodeCache

/-!
# The execution loop

`cpu_exec` looks up a block, charges it, and starts its code. The code does not come back after
each block: where a jump has been patched, control passes to the next block without the loop
noticing. And when the instruction counter has expired in the middle of a block, the loop
generates a block with the remaining instructions, and runs it by `cpu_exec_nocache`. All of these
are blocks that are entered; only the one that was looked up is charged.

## What the guest decides

The loop is run on a list of iterations. An `Iteration` says what the guest and the devices did in
it: whether there was an interrupt, which block was looked up and what had to be translated for
that, for each block that was entered how it was left (`Visit`), and what happened to other blocks
meanwhile (`TbEvent`). Where a patched jump leads is not said by the guest. It is read from the
native jumps, which `tb_add_jump` and the events change.
-/

namespace VariabilityTestbed.Exec

open Runs Translate Variability Option

/-! ### The blocks -/

/-- The cache and the jumps. A block has the same number in both. -/
structure Blocks where
  cache : CodeCache
  jumps : JmpState
  tbInvalidatedFlag : Bool

/-- What can happen to the blocks, besides chaining. -/
inductive TbEvent where
  | tbGenCode (e : TransEnv) (tb : TbHeader) (codeGenSize : ℕ) (page2Fault : Bool)
    (hasJump : Fin 2 → Bool)
  | tbPhysInvalidate (tb : ℕ)
  | tbResetJumpRecursive (tb : ℕ)
  | tbFree (tb : ℕ)
  | tbFlush
  | cpuRestoreState (tb : ℕ) (e : TransEnv) (epilogueOps : ℕ)
  | doSinglestep (option : Option String)

/-- `tb_gen_code`, with the link. A block whose translation is abandoned is not linked. -/
def genAndLink (z : CacheSize) (insnMap : Option InsnMap) (b : Blocks) (e : TransEnv)
    (tb : TbHeader) (codeGenSize : ℕ) (page2Fault : Bool) (hasJump : Fin 2 → Bool) :
    Option Blocks :=
  (tbGenCode z insnMap b.cache e tb codeGenSize page2Fault).map fun c =>
    let i := nextSlot z b.cache
    let jumps := if b.cache.full z then { b.jumps with live := ∅ } else b.jumps
    { cache := c
      jumps := if (c.origin i).isSome then tbLinkPage jumps i hasJump else jumps
      tbInvalidatedFlag := b.tbInvalidatedFlag || b.cache.full z }

/-- One event. -/
def tbEvent (z : CacheSize) (insnMap : Option InsnMap) (b : Blocks) : TbEvent → Option Blocks
  | .tbGenCode e tb codeGenSize page2Fault hasJump =>
    genAndLink z insnMap b e tb codeGenSize page2Fault hasJump
  | .tbPhysInvalidate tb =>
    (tbPhysInvalidate b.jumps tb).map fun jumps =>
      { b with jumps := jumps, tbInvalidatedFlag := true }
  | .tbResetJumpRecursive tb =>
    (tbResetJumpRecursive b.jumps.bound b.jumps tb).map fun jumps => { b with jumps := jumps }
  | .tbFree tb => (cacheStep z insnMap b.cache (.tbFree tb)).map fun c => { b with cache := c }
  | .tbFlush =>
    (cacheStep z insnMap b.cache .tbFlush).map fun c =>
      { b with cache := c, jumps := { b.jumps with live := ∅ } }
  | .cpuRestoreState tb e epilogueOps =>
    (cacheStep z insnMap b.cache (.cpuRestoreState tb e epilogueOps)).map fun c =>
      { b with cache := c }
  | .doSinglestep option =>
    (cacheStep z insnMap b.cache (.doSinglestep option)).map fun c => { b with cache := c }

/-! ### Generated code -/

/-- How the code of a block is left. -/
inductive TbExit where
  /-- `goto_tb n`, and `exit_tb(tb + n)` behind it. -/
  | gotoTb (n : Fin 2)
  /-- `exit_tb(0)`. -/
  | exitTb
  /-- `exit_tb(tb + 2)`, before the first instruction: the instruction counter has expired. -/
  | expired
  /-- `longjmp` out of a helper function. -/
  | longjmp
  deriving DecidableEq, Repr

/-- What happens while one block is executed. -/
structure Visit where
  events : List TbEvent
  leave : TbExit

/-- `next_tb`. -/
inductive NextTb where
  | zero
  /-- `tb + n`. -/
  | jump (tb : ℕ) (n : Fin 2)
  /-- `tb + 2`. -/
  | expired (tb : ℕ)
  deriving DecidableEq, Repr

/-- What came of running code: the blocks after it, what was returned (`none` after `longjmp`) and
`cycle_count` of the blocks that were entered, at that time and in that order. -/
structure CodeRun where
  blocks : Blocks
  nextTb : Option NextTb
  entries : List ClassArray

/-- `tcg_qemu_tb_exec(tb->tc_ptr)`, along a list that says what happens in each block. -/
def tcgQemuTbExec (z : CacheSize) (insnMap : Option InsnMap) (b : Blocks) (tb : ℕ) :
    List Visit → Option CodeRun
  | [] => none
  | v :: path => do
    let entry := (b.cache.tbs tb).cycleCount
    let b ← run (tbEvent z insnMap) b v.events
    match v.leave with
    | .exitTb => some ⟨b, some .zero, [entry]⟩
    | .expired => some ⟨b, some (.expired tb), [entry]⟩
    | .longjmp => some ⟨b, none, [entry]⟩
    | .gotoTb n =>
      match b.jumps.target tb n with
      | .absent => none
      | .reset => some ⟨b, some (.jump tb n), [entry]⟩
      | .code t =>
        (tcgQemuTbExec z insnMap b t path).map fun r => { r with entries := entry :: r.entries }

/-- The inputs of `cpu_exec_nocache`: those of its translation, and what happens in the code. -/
structure Nocache where
  env : TransEnv
  codeGenSize : ℕ
  page2Fault : Bool
  hasJump : Fin 2 → Bool
  path : List Visit

/-- `cpu_exec_nocache`. When the translation or the code is left by `longjmp`, the block is neither
invalidated nor freed. -/
def cpuExecNocache (z : CacheSize) (insnMap : Option InsnMap) (b : Blocks) (maxCycles origTb : ℕ)
    (k : Nocache) : Option (Blocks × List ClassArray) := do
  let maxCycles := min maxCycles CF_COUNT_MASK.toNat
  let tb := nextSlot z b.cache
  let header := { (b.cache.tbs origTb).header with cflags := UInt16.ofNat maxCycles }
  let b ← genAndLink z insnMap b k.env header k.codeGenSize k.page2Fault k.hasJump
  if (b.cache.origin tb).isNone then some (b, [])
  else
    let r ← tcgQemuTbExec z insnMap b tb k.path
    if r.nextTb.isNone then some (r.blocks, r.entries)
    else
      let b ← run (tbEvent z insnMap) r.blocks [.tbPhysInvalidate tb, .tbFree tb]
      some (b, r.entries)

/-! ### The loop -/

/-- What the tests at the top of the loop find. -/
inductive Top where
  /-- Nothing to do. -/
  | goOn
  /-- An interrupt was taken. -/
  | interrupt
  /-- `cpu_loop_exit`, there or while a block is looked up. -/
  | leave
  deriving DecidableEq, Repr

/-- What the guest and the devices do in one iteration. -/
structure Iteration where
  top : Top
  /-- What happened to the blocks since the code came back. -/
  before : List TbEvent
  /-- The lookup did not find the block in `tb_jmp_cache`. -/
  slow : Bool
  /-- What happens to the blocks during the lookup. -/
  translate : List TbEvent
  /-- The block that `tb_find_fast` returns. -/
  tb : ℕ
  /-- `tb->page_addr[1] != -1`. -/
  spansTwoPages : Bool
  privmode : Bool
  /-- `env->exit_request`, just before the code is started. -/
  exitRequest : Bool
  /-- The counters of the block that are never written. -/
  fixed : FixedClass → UInt64
  path : List Visit
  icountExtra : Int
  insnsLeft : Int
  nocache : Nocache

/-- The state of the loop, and a record of the blocks that have been entered. -/
structure ExecState where
  blocks : Blocks
  var : VarState
  nextTb : NextTb
  entered : List ClassArray

/-- The call of `tb_add_jump`, when there is a jump to patch and the block does not span two pages.
With `next_tb = tb + 2` it looks at `jmp_next[2]`, which is the field behind the array, `jmp_first`.
There is nothing to patch unless that is `NULL`. -/
def patchJump (s : JmpState) (nextTb : NextTb) (tb : ℕ) (spansTwoPages : Bool) : Option JmpState :=
  match nextTb, spansTwoPages with
  | .zero, _ => some s
  | _, true => some s
  | .jump u n, false => some (tbAddJump s u n tb)
  | .expired u, false => if s.cell (.first u) = none then none else some s

/-- From the top of the loop until the block is known and the jump to it is patched. -/
def findTb (z : CacheSize) (insnMap : Option InsnMap) (s : ExecState) (it : Iteration) :
    Option ExecState := do
  let b ← run (tbEvent z insnMap) s.blocks it.before
  let b := if it.slow then { b with tbInvalidatedFlag := false } else b
  let b ← run (tbEvent z insnMap) b it.translate
  let nextTb := if it.top = .interrupt || b.tbInvalidatedFlag then .zero else s.nextTb
  let jumps ← patchJump b.jumps nextTb it.tb it.spansTwoPages
  return { s with
    blocks := { b with jumps := jumps, tbInvalidatedFlag := false }
    nextTb := nextTb }

/-- The generated code, and what is done when the instruction counter has expired. -/
def runCode (z : CacheSize) (insnMap : Option InsnMap) (b : Blocks) (it : Iteration) :
    Option (Blocks × NextTb × List ClassArray) := do
  let r ← tcgQemuTbExec z insnMap b it.tb it.path
  match r.nextTb with
  | none => some (r.blocks, .zero, r.entries)
  | some (.expired tb) =>
    if it.icountExtra ≠ 0 ∧ 0 ≤ it.insnsLeft then some (r.blocks, .expired tb, r.entries)
    else if 0 < it.insnsLeft then
      let (b, entries) ← cpuExecNocache z insnMap r.blocks it.insnsLeft.toNat tb it.nocache
      some (b, .zero, r.entries ++ entries)
    else some (r.blocks, .zero, r.entries)
  | some nextTb => some (r.blocks, nextTb, r.entries)

/-- The block is charged and its code is run. -/
def execTb (z : CacheSize) (insnMap : Option InsnMap) (s : ExecState) (it : Iteration) :
    Option ExecState :=
  if it.exitRequest then some s
  else
    (runCode z insnMap s.blocks it).map fun (b, nextTb, entries) =>
      { blocks := b
        var := incrementCycleCounters s.var ⟨it.fixed, (s.blocks.cache.tbs it.tb).cycleCount⟩
        nextTb := nextTb
        entered := s.entered ++ entries }

/-- What `error_model` returns. Its only `return` is this. -/
def errorModelResult : Int := -1

/-- One iteration of the inner loop. -/
def cpuExecStep (z : CacheSize) (insnMap : Option InsnMap) (s : ExecState) (it : Iteration) :
    Option ExecState :=
  if it.top = .leave then
    (run (tbEvent z insnMap) s.blocks it.before).map fun b =>
      { s with blocks := b, nextTb := .zero }
  else
    (findTb z insnMap s it).bind fun s =>
      if s.blocks.cache.flags.singlestep && !it.privmode && s.var.errorsActivated &&
          decide (0 ≤ errorModelResult) then
        -- an instruction was replaced: it is charged here and the block is not executed
        (insnMap.bind fun m => m[errorModelResult.toNat]?).bind fun e =>
          (incrementClassCycleCounter s.var e.instructionType e.cycleCount).map fun var =>
            { s with var := var }
      else execTb z insnMap s it

/-- The loop is entered with any blocks and any counters, and `next_tb = 0`. -/
def startExec (b : Blocks) (var : VarState) : ExecState := ⟨b, var, .zero, []⟩

/-! ### What is entered and what is charged -/

/-- The cycles of class `c` in a list of blocks. -/
def cyclesEntered (entries : List ClassArray) (c : Fin MAX_INSN_CLASSES) : UInt64 :=
  (entries.map fun e => e c).sum

theorem cyclesEntered_cons (e : ClassArray) (l : List ClassArray) (c : Fin MAX_INSN_CLASSES) :
    cyclesEntered (e :: l) c = e c + cyclesEntered l c := List.sum_cons

theorem cyclesEntered_append (l₁ l₂ : List ClassArray) (c : Fin MAX_INSN_CLASSES) :
    cyclesEntered (l₁ ++ l₂) c = cyclesEntered l₁ c + cyclesEntered l₂ c := by
  induction l₁ with
  | nil => exact (UInt64.zero_add _).symm
  | cons e l₁ ih => rw [List.cons_append, cyclesEntered_cons, cyclesEntered_cons, ih,
      UInt64.add_assoc]

/-- The blocks that are entered in one iteration. -/
def entriesOf (z : CacheSize) (insnMap : Option InsnMap) (s : ExecState) (it : Iteration) :
    List ClassArray :=
  if it.top = .leave then []
  else
    match findTb z insnMap s it with
    | none => []
    | some s =>
      if it.exitRequest then []
      else ((runCode z insnMap s.blocks it).map fun r => r.2.2).getD []

/-- Of these, the ones whose cycles in class `c` are not charged: all but the first, and all of
them when the class is not below `total_insn_classes`. -/
def uncharged (n : ClassCount) (c : Fin MAX_INSN_CLASSES) (entries : List ClassArray) :
    List ClassArray :=
  if c.val < n.val then entries.tail else entries

variable {z : CacheSize} {insnMap : Option InsnMap}

/-- The first block that is entered is the one that was started. -/
theorem tcgQemuTbExec_entries {b : Blocks} {tb : ℕ} {path : List Visit} {r : CodeRun}
    (h : tcgQemuTbExec z insnMap b tb path = some r) :
    ∃ rest, r.entries = (b.cache.tbs tb).cycleCount :: rest := by
  cases path with
  | nil => cases h
  | cons v path =>
    simp only [tcgQemuTbExec, bind, bind_eq_some_iff] at h
    obtain ⟨b', -, h⟩ := h
    split at h
    · exact ⟨[], (some.inj h) ▸ rfl⟩
    · exact ⟨[], (some.inj h) ▸ rfl⟩
    · exact ⟨[], (some.inj h) ▸ rfl⟩
    · split at h
      · cases h
      · exact ⟨[], (some.inj h) ▸ rfl⟩
      · obtain ⟨r', -, rfl⟩ := map_eq_some_iff.mp h
        exact ⟨r'.entries, rfl⟩

theorem runCode_entries {b b' : Blocks} {it : Iteration} {nextTb : NextTb}
    {entries : List ClassArray} (h : runCode z insnMap b it = some (b', nextTb, entries)) :
    ∃ rest, entries = (b.cache.tbs it.tb).cycleCount :: rest := by
  simp only [runCode, bind, bind_eq_some_iff] at h
  obtain ⟨r, hr, h⟩ := h
  obtain ⟨rest, hrest⟩ := tcgQemuTbExec_entries hr
  split at h
  · cases h
    exact ⟨rest, hrest⟩
  · split at h
    · cases h
      exact ⟨rest, hrest⟩
    · split at h
      · -- the block of `cpu_exec_nocache` comes after those of the first run
        obtain ⟨⟨b'', more⟩, -, h⟩ := bind_eq_some_iff.mp h
        cases h
        exact ⟨rest ++ more, congrArg (· ++ more) hrest⟩
      · cases h
        exact ⟨rest, hrest⟩
  · cases h
    exact ⟨rest, hrest⟩

/-- The lookup changes neither the counters nor the record. -/
theorem findTb_frame {s s' : ExecState} {it : Iteration} (h : findTb z insnMap s it = some s') :
    s'.var = s.var ∧ s'.entered = s.entered := by
  simp only [findTb, bind, bind_eq_some_iff] at h
  obtain ⟨b₁, -, b₂, -, jumps, -, h⟩ := h
  cases h
  exact ⟨rfl, rfl⟩

/-- **One iteration**: the totals and what is not charged, together, account for the blocks that
are entered. -/
structure Accounted (z : CacheSize) (insnMap : Option InsnMap) (s : ExecState) (it : Iteration)
    (s' : ExecState) : Prop where
  classes : s'.var.totalInsnClasses = s.var.totalInsnClasses
  entered : s'.entered = s.entered ++ entriesOf z insnMap s it
  totals : ∀ c, s'.var.totalCycleCount c +
      cyclesEntered (uncharged s.var.totalInsnClasses c (entriesOf z insnMap s it)) c =
    s.var.totalCycleCount c + cyclesEntered (entriesOf z insnMap s it) c

/-- Nothing is charged in an iteration in which no block is entered. -/
theorem accounted_of_nil {s s' : ExecState} {it : Iteration} (hvar : s'.var = s.var)
    (hentered : s'.entered = s.entered) (hnone : entriesOf z insnMap s it = []) :
    Accounted z insnMap s it s' := by
  have huncharged : ∀ c, uncharged s.var.totalInsnClasses c [] = [] := by
    intro c
    rw [uncharged]
    split <;> rfl
  refine ⟨by rw [hvar], by rw [hentered, hnone, List.append_nil], fun c => ?_⟩
  rw [hvar, hnone, huncharged]

theorem accounted_of_step {s s' : ExecState} {it : Iteration}
    (h : cpuExecStep z insnMap s it = some s') : Accounted z insnMap s it s' := by
  rw [cpuExecStep] at h
  split at h
  next htop =>
    obtain ⟨b, -, rfl⟩ := map_eq_some_iff.mp h
    exact accounted_of_nil rfl rfl (if_pos htop)
  next htop =>
    obtain ⟨s₁, hfind, h⟩ := bind_eq_some_iff.mp h
    obtain ⟨hvar, hentered⟩ := findTb_frame hfind
    -- `error_model` never reports a replaced instruction
    rw [show decide (0 ≤ errorModelResult) = false from rfl, Bool.and_false,
      if_neg (by nofun), execTb] at h
    split at h
    next hexit =>
      cases h
      refine accounted_of_nil hvar hentered ?_
      simp only [entriesOf, if_neg htop, hfind, if_pos hexit]
    next hexit =>
      obtain ⟨⟨b, nextTb, entries⟩, hrun, rfl⟩ := map_eq_some_iff.mp h
      have hentries : entriesOf z insnMap s it = entries := by
        simp only [entriesOf, if_neg htop, hfind, if_neg hexit, hrun]
        rfl
      obtain ⟨rest, rfl⟩ := runCode_entries hrun
      refine ⟨?_, ?_, fun c => ?_⟩
      · show s₁.var.totalInsnClasses = s.var.totalInsnClasses
        rw [hvar]
      · rw [hentries, ← hentered]
      · rw [hentries, ← hvar, cyclesEntered_cons]
        simp only [incrementCycleCounters, uncharged]
        by_cases hc : c.val < s₁.var.totalInsnClasses.val
        · rw [forClasses_of_lt hc, if_pos hc, List.tail_cons, UInt64.add_assoc]
        · rw [forClasses_of_not_lt hc, if_neg hc, cyclesEntered_cons]

/-! ### Runs -/

/-- Since the start of the loop, the totals have grown by the cycles of all blocks entered. -/
def ChargedOnce (var : VarState) (s : ExecState) : Prop :=
  ∀ c, s.var.totalCycleCount c = var.totalCycleCount c + cyclesEntered s.entered c

/-- **When every block that is entered is charged once.** For any run of the loop, from any blocks
and counters: it is so in every state if and only if, in each iteration and each class, the blocks
that are entered without being charged have no cycles (modulo `2 ^ 64`). -/
theorem charged_once_iff {b : Blocks} {var : VarState} {its : List Iteration} {s : ExecState}
    (h : run (cpuExecStep z insnMap) (startExec b var) its = some s) :
    (∀ p t, p <+: its → run (cpuExecStep z insnMap) (startExec b var) p = some t →
        ChargedOnce var t) ↔
      ∀ p it t, p ++ [it] <+: its → run (cpuExecStep z insnMap) (startExec b var) p = some t →
        ∀ c,
          cyclesEntered (uncharged t.var.totalInsnClasses c (entriesOf z insnMap t it)) c = 0 := by
  refine forall_prefix_iff (P := fun _ t => ChargedOnce var t) ?_ ?_ h
  · intro c
    exact (UInt64.add_zero _).symm
  · intro p it t t' _ _ hstep hcharged
    have hacc := accounted_of_step hstep
    refine forall_congr' fun c => ?_
    have htotals := hacc.totals c
    rw [hacc.entered, cyclesEntered_append]
    rw [hcharged c] at htotals
    constructor
    · intro heq
      rw [heq] at htotals
      grind
    · intro hzero
      rw [hzero] at htotals
      grind

/-! ### A block that jumps to itself

With all six classes configured and one block of one branch: the first iteration generates the
block and charges it. In the second one its jump is patched, to itself, so that the block is
entered twice, until an interrupt unchains it. -/

/-- An iteration in which the block in entry 0 is looked up, in privileged mode. -/
def lookupZero (translate : List TbEvent) (path : List Visit) : Iteration where
  top := .goOn
  before := []
  slow := true
  translate := translate
  tb := 0
  spansTwoPages := false
  privmode := true
  exitRequest := false
  fixed := fun _ => 0
  path := path
  icountExtra := 0
  insnsLeft := 0
  nocache := ⟨branchEnv, 0, false, fun _ => false, []⟩

/-- The block is generated, with one jump, executed, and comes back from the jump. -/
def firstIteration (n : Fin 2) : Iteration :=
  lookupZero [.tbGenCode branchEnv ⟨0, 0, 0⟩ 32 false fun m => m == n] [⟨[], .gotoTb n⟩]

/-- The block runs into itself, and is unchained during the second round. -/
def secondIteration (n : Fin 2) : Iteration :=
  lookupZero [] [⟨[], .gotoTb n⟩, ⟨[.tbResetJumpRecursive 0], .gotoTb n⟩]

def emptyBlocks : Blocks := ⟨zeroCache, initJmpState (fun _ => none) fun _ _ => .absent, false⟩

def allClasses : VarState := initState ⟨6, le_rfl⟩

theorem chained_entry_not_charged :
    ∃ s c, run (cpuExecStep smallCache (some branchMap)) (startExec emptyBlocks allClasses)
      [firstIteration 0, secondIteration 0] = some s ∧
      s.var.totalCycleCount c = 6 ∧ cyclesEntered s.entered c = 9 ∧
      ¬ ChargedOnce allClasses s := by
  simp only [exists_and_left]
  refine exists_of_map
    (fun s => (s.var.totalCycleCount ⟨1, by decide⟩, cyclesEntered s.entered ⟨1, by decide⟩))
    (6, 9) (by decide)
    fun s _ heq => ?_
  obtain ⟨htotal, hentered⟩ := Prod.mk.inj heq
  refine ⟨_, htotal, hentered, fun hcharged => ?_⟩
  have hone := hcharged ⟨1, by decide⟩
  rw [htotal, hentered] at hone
  cases hone

theorem first_entry_charged :
    ∃ s, run (cpuExecStep smallCache (some branchMap)) (startExec emptyBlocks allClasses)
      [firstIteration 0] = some s ∧
      ∀ p t, p <+: [firstIteration 0] →
        run (cpuExecStep smallCache (some branchMap)) (startExec emptyBlocks allClasses) p =
          some t →
        ChargedOnce allClasses t := by
  refine exists_of_isSome (by decide) fun s hs => (charged_once_iff hs).mpr ?_
  exact Along.cond ⟨by decide, fun _ _ => trivial⟩

end VariabilityTestbed.Exec
