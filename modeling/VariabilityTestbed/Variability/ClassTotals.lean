import Mathlib.Algebra.BigOperators.Group.List.Basic
import VariabilityTestbed.Translate.CodeCache
import VariabilityTestbed.Variability.FileSettings

/-!
# Cycles of all classes together

A block is charged for each of its instructions in the class of the instruction, and an execution
of the block adds its counters to the running totals. Recording goes by `instruction_type`, which
is one of six classes whatever the file says; adding up goes by `total_insn_classes`, the number of
classes in the file. An instruction that the file does not mention stays in its built-in class, and
when that class is above `total_insn_classes` its cycles are recorded and never added up.

The machine here is the cache of translated blocks together with the counters. Its operations are
those of the cache and the execution of a block.
-/

namespace VariabilityTestbed.Variability

open Runs Words QObject Translate List Option

/-! ### The machine -/

/-- The initialisation of a board: `get_map_entry(name)->cycle_count = cycles`, for a list of
instructions. -/
def boardInit (m : InsnMap) : List (String × UInt8) → Option InsnMap
  | [] => some m
  | (name, cycles) :: rest =>
    (updateEntry m name fun e => { e with cycleCount := cycles }).bind fun m => boardInit m rest

/-- The cache, the counters, and a record of the blocks whose executions were charged. -/
structure Testbed where
  cache : CodeCache
  var : VarState
  executed : List Origin

/-- An operation on the cache, or the charge for an execution of the block in entry `i`. The five
counters of built-in classes in a block are never written, so they may have any contents. -/
inductive TestbedOp where
  | cache (op : CacheOp)
  | execTb (i : ℕ) (fixed : FixedClass → UInt64)

/-- One operation. Only live blocks are executed. -/
def testbedStep (z : CacheSize) (m : InsnMap) (s : Testbed) : TestbedOp → Option Testbed
  | .cache op => (cacheStep z (some m) s.cache op).map fun c => { s with cache := c }
  | .execTb i fixed =>
    (s.cache.origin i).map fun o =>
      { s with
        var := incrementCycleCounters s.var ⟨fixed, (s.cache.tbs i).cycleCount⟩
        executed := s.executed ++ [o] }

/-- Program start, with `n` classes configured. -/
def initTestbed (n : ClassCount) (tbs : ℕ → TbSlot) (flags : StepFlags) (opcMap : OpcMap) :
    Testbed :=
  ⟨initCache tbs flags opcMap, initState n, []⟩

/-! ### Sums over classes -/

/-- The classes `i < total_insn_classes`. -/
def configured (n : ClassCount) : List (Fin MAX_INSN_CLASSES) :=
  (List.finRange MAX_INSN_CLASSES).filter fun i => i.val < n.val

/-- The sum of a class array over the configured classes. -/
def sumConfigured (n : ClassCount) (a : ClassArray) : UInt64 := ((configured n).map a).sum

/-- The cycles of an instruction, if it is in none of the classes `1` to `total_insn_classes`. -/
def InsnEntry.uncounted (n : ClassCount) (e : InsnEntry) : ℕ :=
  if e.instructionType.toNat ≤ n.val then 0 else e.cycleCount.toNat

/-- The cycles of the instructions `names` that are in none of the classes that are added up. -/
def uncounted (m : InsnMap) (n : ClassCount) (names : List String) : ℕ :=
  (names.map fun name => ((mapEntry (some m) name).map (InsnEntry.uncounted n)).getD 0).sum

/-- The cycles of all instructions in all blocks executed so far. -/
def cyclesExecuted (m : InsnMap) (executed : List Origin) : ℕ :=
  (executed.map fun o => cyclesOf (some m) o.pass.names).sum

theorem sum_map_ite_eq {ι : Type*} [DecidableEq ι] {l : List ι} (hl : l.Nodup) (i : ι) (c : ℕ) :
    (l.map fun k => if i = k then c else 0).sum = if i ∈ l then c else 0 := by
  induction l with
  | nil => rfl
  | cons k l ih =>
    obtain ⟨hk, hl⟩ := nodup_cons.mp hl
    rw [map_cons, sum_cons, ih hl]
    by_cases hik : i = k
    · subst hik
      simp [hk]
    · simp [hik]

theorem mem_configured {n : ClassCount} {i : Fin MAX_INSN_CLASSES} :
    i ∈ configured n ↔ i.val < n.val := by
  simp [configured]

theorem sumConfigured_zero (n : ClassCount) : sumConfigured n (fun _ => 0) = 0 := by
  refine (sum_map_ofNat (configured n) fun _ => 0).trans ?_
  simp

/-- The cycles of one instruction are in its class, if that is configured, or uncounted. -/
theorem InsnEntry.cycles_eq {e : InsnEntry} (he : e.Chargeable) (n : ClassCount) :
    e.cycleCount.toNat =
      ((configured n).map fun k => e.cyclesIn k).sum + e.uncounted n := by
  rcases he with hzero | hslot
  · simp [InsnEntry.cyclesIn, InsnEntry.uncounted, hzero]
  · obtain ⟨i, hi⟩ := isSome_iff_exists.mp hslot
    have htype : e.instructionType.toNat = i.val + 1 := classSlot_eq_some.mp hi
    have hnodup : (configured n).Nodup := (nodup_finRange _).filter _
    simp only [InsnEntry.cyclesIn, hi, some.injEq]
    rw [sum_map_ite_eq hnodup, InsnEntry.uncounted]
    by_cases hin : i.val < n.val
    · rw [if_pos (mem_configured.mpr hin), if_pos (by omega), Nat.add_zero]
    · rw [if_neg (fun h => hin (mem_configured.mp h)), if_neg (by omega), Nat.zero_add]

/-- All instructions in a list can be charged. -/
def AllChargeable (m : InsnMap) (names : List String) : Prop :=
  ∀ name ∈ names, ∀ e, mapEntry (some m) name = some e → e.Chargeable

theorem cyclesOf_singleton_eq {m : InsnMap} {name : String}
    (h : ∀ e, mapEntry (some m) name = some e → e.Chargeable) (n : ClassCount) :
    cyclesOf (some m) [name] =
      ((configured n).map (cyclesIn (some m) [name])).sum + uncounted m n [name] := by
  cases he : mapEntry (some m) name with
  | none =>
    have hin : cyclesIn (some m) [name] = fun _ => 0 := by
      funext k
      simp [cyclesIn, he]
    simp [hin, cyclesOf, uncounted, he]
  | some e =>
    have hin : cyclesIn (some m) [name] = fun k => e.cyclesIn k := by
      funext k
      simp [cyclesIn, he]
    simpa [hin, cyclesOf, uncounted, he] using InsnEntry.cycles_eq (h e he) n

/-- **The cycles of a block are counted or uncounted.** -/
theorem cyclesOf_eq {m : InsnMap} {names : List String} (h : AllChargeable m names)
    (n : ClassCount) :
    cyclesOf (some m) names =
      ((configured n).map (cyclesIn (some m) names)).sum + uncounted m n names := by
  induction names with
  | nil =>
    have hin : cyclesIn (some m) [] = fun _ => 0 := rfl
    simp [hin, cyclesOf, uncounted]
  | cons name names ih =>
    have hhead := cyclesOf_singleton_eq (h name (.head _)) n
    have htail := ih fun name' hname' => h name' (.tail _ hname')
    have hof : cyclesOf (some m) (name :: names) =
        cyclesOf (some m) [name] + cyclesOf (some m) names := by
      simp [cyclesOf]
    have hun : uncounted m n (name :: names) = uncounted m n [name] + uncounted m n names := by
      simp [uncounted]
    have hin : cyclesIn (some m) (name :: names) = fun k =>
        cyclesIn (some m) [name] k + cyclesIn (some m) names k := by
      funext k
      exact cyclesIn_append (some m) [name] names k
    rw [hof, hun, hin, List.sum_map_add, hhead, htail]
    omega

/-! ### Runs -/

/-- The totals of the configured classes account for every cycle executed. -/
def Complete (m : InsnMap) (s : Testbed) : Prop :=
  sumConfigured s.var.totalInsnClasses s.var.totalCycleCount =
    UInt64.ofNat (cyclesExecuted m s.executed)

variable {z : CacheSize} {m : InsnMap} {n : ClassCount} {s s' : Testbed}

/-- What holds of every state of every run: the number of classes does not change, and the
instructions of live blocks were charged when they were translated. -/
structure Sound (m : InsnMap) (n : ClassCount) (s : Testbed) : Prop where
  classes : s.var.totalInsnClasses = n
  live : LiveAllocated s.cache
  chargeable : ∀ i o, s.cache.origin i = some o → AllChargeable m o.pass.names

theorem chargeable_step {op : CacheOp} {c c' : CodeCache} (hlive : LiveAllocated c)
    (hc : ∀ i o, c.origin i = some o → AllChargeable m o.pass.names)
    (h : cacheStep z (some m) c op = some c') :
    ∀ i o, c'.origin i = some o → AllChargeable m o.pass.names := by
  intro i o ho
  rcases (liveFrom_of_step hlive h ho).1 with ⟨_, hold, -⟩ | ⟨e, epilogueOps, hold, -⟩ |
    ⟨e, tb, codeGenSize, rfl, -, rfl, hgen⟩
  · exact hc i o hold
  · exact hc i o hold
  · exact chargeable_of_charge hgen.charged

theorem Sound.step {op : TestbedOp} (hs : Sound m n s) (h : testbedStep z m s op = some s') :
    Sound m n s' := by
  cases op with
  | cache op =>
    obtain ⟨c, hc, rfl⟩ := map_eq_some_iff.mp h
    exact ⟨hs.classes, hs.live.step hc, chargeable_step hs.live hs.chargeable hc⟩
  | execTb i fixed =>
    obtain ⟨o, -, rfl⟩ := map_eq_some_iff.mp h
    exact ⟨hs.classes, hs.live, hs.chargeable⟩

/-- An execution adds the counters of the block to the sum of the configured classes. -/
theorem sumConfigured_increment (st : VarState) (tb : TbCounters) :
    sumConfigured st.totalInsnClasses (incrementCycleCounters st tb).totalCycleCount =
      sumConfigured st.totalInsnClasses st.totalCycleCount +
        sumConfigured st.totalInsnClasses tb.cycleCount := by
  rw [sumConfigured, sumConfigured, sumConfigured, ← sum_map_add]
  refine congrArg sum (map_congr_left fun i hi => ?_)
  exact forClasses_of_lt (mem_configured.mp hi) st.totalCycleCount
    fun i => st.totalCycleCount i + tb.cycleCount i

/-- **One execution** of a block with exact counters keeps the totals complete just when the
uncounted cycles of the block amount to nothing. -/
theorem complete_execTb_iff {i : ℕ} {fixed : FixedClass → UInt64} {o : Origin}
    (hs : Sound m n s) (hex : Exact (some m) s.cache) (ho : s.cache.origin i = some o)
    (hcomplete : Complete m s) (h : testbedStep z m s (.execTb i fixed) = some s') :
    Complete m s' ↔ uncounted m n o.pass.names % 2 ^ 64 = 0 := by
  obtain ⟨o', ho', rfl⟩ := map_eq_some_iff.mp h
  obtain rfl : o = o' := some.inj (ho.symm.trans ho')
  have hblock : sumConfigured n (s.cache.tbs i).cycleCount =
      UInt64.ofNat ((configured n).map (cyclesIn (some m) o.pass.names)).sum := by
    rw [← sum_map_ofNat]
    refine congrArg sum (map_congr_left fun k _ => ?_)
    exact hex i o ho k
  have hexec : cyclesExecuted m (s.executed ++ [o]) =
      cyclesExecuted m s.executed + cyclesOf (some m) o.pass.names := by
    simp [cyclesExecuted]
  show sumConfigured s.var.totalInsnClasses _ = UInt64.ofNat (cyclesExecuted m (_ ++ [o])) ↔ _
  rw [sumConfigured_increment, hcomplete, hs.classes, hblock, hexec,
    cyclesOf_eq (hs.chargeable i o ho) n, UInt64.ofNat_add, UInt64.ofNat_add, ← UInt64.add_assoc,
    eq_comm]
  exact add_ofNat_eq_self_iff _ _

/-! ### A configured testbed -/

/-- A file with at most six classes sets `total_insn_classes` to their number. -/
theorem total_le_of_size {qobjectFromJson : List UInt8 → Option QObject} {stack file : List UInt8}
    {cfg : VarConfig} (hparse : parseVariabilityFile qobjectFromJson stack file = some cfg)
    (hsize : qdictSize (fileClasses qobjectFromJson stack file) ≤ MAX_INSN_CLASSES) :
    cfg.totalInsnClasses.toNat ≤ MAX_INSN_CLASSES := by
  rw [(shaped_of_parse hparse).total, UInt8.toNat_ofNat']
  exact (Nat.mod_le _ _).trans hsize

/-- A testbed that has been configured with a variability file of at most six classes and
initialised for a board. -/
structure Setup (qobjectFromJson : List UInt8 → Option QObject) where
  stack : List UInt8
  file : List UInt8
  cfg : VarConfig
  accepted : parseVariabilityFile qobjectFromJson stack file = some cfg
  size_le : qdictSize (fileClasses qobjectFromJson stack file) ≤ MAX_INSN_CLASSES
  /-- The cycle counts of the board. -/
  cycles : List (String × UInt8)
  insnMap : InsnMap
  board : boardInit cfg.insnMap cycles = some insnMap

variable {qobjectFromJson : List UInt8 → Option QObject}

/-- `total_insn_classes`. -/
def Setup.classes (u : Setup qobjectFromJson) : ClassCount :=
  ⟨u.cfg.totalInsnClasses.toNat, total_le_of_size u.accepted u.size_le⟩

section Main

variable {u : Setup qobjectFromJson} {tbs : ℕ → TbSlot} {flags : StepFlags} {opcMap : OpcMap}
  {ops : List TestbedOp}

theorem sound_of_run {p : List TestbedOp} {t : Testbed}
    (h : run (testbedStep z m) (initTestbed n tbs flags opcMap) p = some t) : Sound m n t := by
  refine run_invariant (fun s op s' hs hstep => hs.step hstep) ⟨rfl, ?_, ?_⟩ h
  · intro i o ho
    cases ho
  · intro i o ho
    cases ho

/-- In a run whose operations on the cache are clean, the counters of the blocks are exact. -/
theorem exact_of_clean
    (hclean : ∀ p op t, p ++ [.cache op] <+: ops →
      run (testbedStep z m) (initTestbed n tbs flags opcMap) p = some t →
      CleanStep z (some m) t.cache op) :
    ∀ p t, p <+: ops → run (testbedStep z m) (initTestbed n tbs flags opcMap) p = some t →
      Exact (some m) t.cache := by
  refine forall_prefix (P := fun _ (t : Testbed) => Exact (some m) t.cache) ?_ ?_
  · intro i o ho
    cases ho
  · intro p op t t' hp ht hex hstep
    cases op with
    | cache op =>
      obtain ⟨c, hc, rfl⟩ := map_eq_some_iff.mp hstep
      exact hex.step (sound_of_run ht).live hc (hclean p op t hp ht)
    | execTb i fixed =>
      obtain ⟨o, -, rfl⟩ := map_eq_some_iff.mp hstep
      exact hex

/-- **When no cycles are dropped.** The file is any that is accepted and has at most six classes,
the board is any, and the run is any in which the counters of the blocks stay exact. In it the
totals account for all cycles executed, in every state, if and only if no executed block has
cycles in a class above `total_insn_classes` (modulo `2 ^ 64`). -/
theorem totals_complete_iff
    (h : run (testbedStep z u.insnMap) (initTestbed u.classes tbs flags opcMap) ops = some s)
    (hclean : ∀ p op t, p ++ [.cache op] <+: ops →
      run (testbedStep z u.insnMap) (initTestbed u.classes tbs flags opcMap) p = some t →
      CleanStep z (some u.insnMap) t.cache op) :
    (∀ p t, p <+: ops →
        run (testbedStep z u.insnMap) (initTestbed u.classes tbs flags opcMap) p = some t →
        Complete u.insnMap t) ↔
      ∀ p i fixed t o, p ++ [.execTb i fixed] <+: ops →
        run (testbedStep z u.insnMap) (initTestbed u.classes tbs flags opcMap) p = some t →
        t.cache.origin i = some o →
        uncounted u.insnMap u.classes o.pass.names % 2 ^ 64 = 0 := by
  have hexact := exact_of_clean hclean
  have hiff := forall_prefix_iff (P := fun _ t => Complete u.insnMap t)
    (C := fun t op => ∀ i fixed, op = .execTb i fixed → ∀ o, t.cache.origin i = some o →
      uncounted u.insnMap u.classes o.pass.names % 2 ^ 64 = 0) ?_ ?_ h
  · rw [hiff]
    constructor
    · intro hC p i fixed t o hp ht ho
      exact hC p _ t hp ht i fixed rfl o ho
    · rintro hC p op t hp ht i fixed rfl o ho
      exact hC p i fixed t o hp ht ho
  · -- at the start nothing has been counted or executed
    exact sumConfigured_zero u.classes
  · intro p op t t' hp ht hstep hcomplete
    have hbefore : p <+: ops := (prefix_append p [op]).trans hp
    cases op with
    | cache op =>
      obtain ⟨c, -, rfl⟩ := map_eq_some_iff.mp hstep
      refine iff_of_true hcomplete ?_
      rintro i fixed ⟨⟩
    | execTb i fixed =>
      obtain ⟨o, ho, -⟩ := map_eq_some_iff.mp hstep
      rw [complete_execTb_iff (sound_of_run ht) (hexact p t hbefore ht) ho hcomplete hstep]
      constructor
      · rintro hzero i' fixed' ⟨⟩ o' ho'
        obtain rfl : o = o' := some.inj (ho.symm.trans ho')
        exact hzero
      · intro hzero
        exact hzero i fixed rfl o ho

end Main

/-! ### A file with one class

The file describes one class, the first, and puts `MUL` into it. Additions are in it anyway.
Branches stay in their built-in class, the second, which is not added up. -/

/-- The configuration, on a board where additions and branches take three cycles. -/
def oneClassSetup : Setup sampleJson where
  stack := []
  file := describeClass "1" ++ assignMul
  cfg := (parseVariabilityFile sampleJson [] (describeClass "1" ++ assignMul)).get
    (by decide +kernel)
  accepted := (Option.some_get _).symm
  size_le := by decide +kernel
  cycles := [("ADD_reg", 3), ("BLX_reg", 3)]
  insnMap := (boardInit ((parseVariabilityFile sampleJson []
    (describeClass "1" ++ assignMul)).get (by decide +kernel)).insnMap [("ADD_reg", 3),
    ("BLX_reg", 3)]).get
      (by decide +kernel)
  board := (Option.some_get _).symm

/-- One block is generated and executed. -/
def generateAndExec (op : CacheOp) : List TestbedOp := [.cache op, .execTb 0 fun _ => 0]

/-- The testbed at program start. -/
def oneClassTestbed : Testbed :=
  initTestbed oneClassSetup.classes zeroCache.tbs zeroCache.flags emptyOpcMap

/-- The three cycles of a branch are executed and not counted. -/
theorem branch_cycles_dropped :
    ¬ ∀ s, run (testbedStep smallCache oneClassSetup.insnMap) oneClassTestbed
        (generateAndExec genBranch) = some s → Complete oneClassSetup.insnMap s := by
  intro hall
  have hsums : (run (testbedStep smallCache oneClassSetup.insnMap) oneClassTestbed
      (generateAndExec genBranch)).map
      (fun s => (sumConfigured s.var.totalInsnClasses s.var.totalCycleCount,
        cyclesExecuted oneClassSetup.insnMap s.executed)) = some (0, 3) := by
    decide +kernel
  obtain ⟨s, hs, hsums⟩ := map_eq_some_iff.mp hsums
  obtain ⟨htotal, hexec⟩ := Prod.mk.injEq .. ▸ hsums
  have hcomplete : _ = _ := hall s hs
  rw [htotal, hexec] at hcomplete
  cases hcomplete

/-- A block of one addition is generated. -/
def genAdd : CacheOp :=
  .tbGenCode
    { branchEnv with disasArmInsn := fun dc => .insn { dc with isJmp := .jump } ["ADD_reg"] 2 }
    ⟨0, 0, 0⟩ 32 false

/-- Those of an addition are counted. -/
theorem add_cycles_counted :
    ∃ s, run (testbedStep smallCache oneClassSetup.insnMap) oneClassTestbed
        (generateAndExec genAdd) = some s ∧ Complete oneClassSetup.insnMap s := by
  have hnames : (run (testbedStep smallCache oneClassSetup.insnMap) oneClassTestbed
      [.cache genAdd]).map (fun s => (s.cache.origin 0).map fun o => o.pass.names) =
      some (some ["ADD_reg"]) := by decide +kernel
  have hsome : (run (testbedStep smallCache oneClassSetup.insnMap) oneClassTestbed
      (generateAndExec genAdd)).isSome := by decide +kernel
  obtain ⟨s, hs⟩ := isSome_iff_exists.mp hsome
  refine ⟨s, hs, (totals_complete_iff hs ?_).mpr ?_ _ s (prefix_refl _) hs⟩
  · intro p op t hp ht
    match p with
    | [] =>
      obtain ⟨hop, -⟩ := cons_prefix_cons.mp hp
      cases hop
      cases ht
      intro _ _ k
      rfl
    | [a] =>
      obtain ⟨hop, -⟩ := cons_prefix_cons.mp (cons_prefix_cons.mp hp).2
      cases hop
    | a :: a' :: p =>
      have := hp.length_le
      simp [generateAndExec] at this
  · intro p i fixed t o hp ht ho
    match p with
    | [] =>
      obtain ⟨hop, -⟩ := cons_prefix_cons.mp hp
      cases hop
    | [a] =>
      obtain ⟨rfl, hrest⟩ := cons_prefix_cons.mp hp
      obtain ⟨rfl, -⟩ := TestbedOp.execTb.inj (cons_prefix_cons.mp hrest).1
      have hrun : run (testbedStep smallCache oneClassSetup.insnMap) oneClassTestbed
          [.cache genAdd] = some t := ht
      rw [hrun] at hnames
      have horigin : (t.cache.origin 0).map (fun o => o.pass.names) = some ["ADD_reg"] :=
        some.inj hnames
      rw [ho] at horigin
      have hadd : o.pass.names = ["ADD_reg"] := some.inj horigin
      rw [hadd]
      decide +kernel
    | a :: a' :: p =>
      have := hp.length_le
      simp [generateAndExec] at this

end VariabilityTestbed.Variability
