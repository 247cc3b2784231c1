import VariabilityTestbed.Lib.Runs
import VariabilityTestbed.Lib.Words
import VariabilityTestbed.Translate.InsnLoop
import VariabilityTestbed.Variability.InsnMap

/-!
# The cache of translated blocks

Blocks live in an array `tbs` that is allocated once, with whatever contents `malloc` gives it.
`tb_alloc` hands out the next entry, `tb_free` takes back the last one, and `tb_flush` takes back
all of them at once. None of these clears the class counters of an entry.

A block is translated when it is generated, and once more each time `cpu_restore_state` needs to
know where in the block a fault happened. Both translations charge the block for the instructions
they decode.

## Live blocks

`origin` is not in the source. It records, for an entry that holds a block which was generated to
the end, how that block came about: the guest code it was translated from and the pass that
translated it. A block whose generation was abandoned by a fault keeps its entry but never goes
live.
-/

namespace VariabilityTestbed.Translate

open Function Runs Variability Words Option

/-! ### The code -/

/-- The sizes fixed by `code_gen_alloc`. -/
structure CacheSize where
  /-- `code_gen_max_blocks`. -/
  maxBlocks : ℕ
  /-- `code_gen_buffer_max_size`. -/
  bufferMaxSize : ℕ
  /-- `code_gen_buffer_size`. -/
  bufferSize : ℕ

/-- The fields of a `TranslationBlock` that translation reads or writes. -/
structure TbSlot where
  header : TbHeader
  size : UInt16
  icount : ℕ
  /-- `tc_ptr - code_gen_buffer`. -/
  tcPtr : ℕ
  cycleCount : ClassArray

/-- How a live block was generated. -/
structure Origin where
  env : TransEnv
  pass : Pass

/-- The cache, the flags and the arrays a translation uses. -/
structure CodeCache where
  tbs : ℕ → TbSlot
  nbTbs : ℕ
  /-- `code_gen_ptr - code_gen_buffer`. -/
  codeGenPtr : ℕ
  flags : StepFlags
  opcMap : OpcMap
  origin : ℕ → Option Origin

/-- The cache at program start: nothing allocated, arbitrary contents. -/
def initCache (tbs : ℕ → TbSlot) (flags : StepFlags) (opcMap : OpcMap) : CodeCache :=
  ⟨tbs, 0, 0, flags, opcMap, fun _ => none⟩

/-- The test in `tb_alloc`. -/
def CodeCache.full (z : CacheSize) (c : CodeCache) : Bool :=
  c.nbTbs ≥ z.maxBlocks || c.codeGenPtr ≥ z.bufferMaxSize

/-- `tb_alloc`. -/
def tbAlloc (z : CacheSize) (c : CodeCache) (pc : UInt32) : Option (CodeCache × ℕ) :=
  if c.full z then none
  else
    let tb := c.tbs c.nbTbs
    let tb := { tb with header := { tb.header with pc := pc, cflags := 0 } }
    some ({ c with tbs := update c.tbs c.nbTbs tb, nbTbs := c.nbTbs + 1 }, c.nbTbs)

/-- `tb_flush`, with its check for an overrun buffer. -/
def tbFlush (z : CacheSize) (c : CodeCache) : Option CodeCache :=
  if c.codeGenPtr > z.bufferSize then none
  else some { c with nbTbs := 0, codeGenPtr := 0, origin := fun _ => none }

/-- The allocation in `tb_gen_code`: flush when there is no room. -/
def allocTb (z : CacheSize) (c : CodeCache) (pc : UInt32) : Option (CodeCache × ℕ) :=
  match tbAlloc z c pc with
  | some r => some r
  | none => (tbFlush z c).bind fun c => tbAlloc z c pc

/-- `tb_free`. -/
def tbFree (c : CodeCache) (i : ℕ) : CodeCache :=
  if 0 < c.nbTbs ∧ i = c.nbTbs - 1 then
    { c with
      codeGenPtr := (c.tbs i).tcPtr
      nbTbs := c.nbTbs - 1
      origin := update c.origin i none }
  else c

/-- `cpu_abort` after the loop: the last instruction may do I/O but can be skipped. -/
def Pass.aborts (tb : TbHeader) (p : Pass) : Bool :=
  tb.lastIo && p.last.dc.condjmp &&
    (p.ending == .condition || p.ending == .exceptionExit)

/-- The rounding of `code_gen_ptr` up to a multiple of `CODE_GEN_ALIGN`. -/
def codeGenAlign (n : ℕ) : ℕ := (n + 15) / 16 * 16

/-- `tb_gen_code`, with the size of the host code and whether the lookup of a second page faults.
A fault of the first lookup comes before anything is changed. -/
def tbGenCode (z : CacheSize) (insnMap : Option InsnMap) (c : CodeCache) (e : TransEnv)
    (tb : TbHeader) (codeGenSize : ℕ) (page2Fault : Bool) : Option CodeCache := do
  let (c, i) ← allocTb z c tb.pc
  let p := genIntermediateCodeInternal e tb false c.flags c.opcMap
  let cycleCount ← charge insnMap (c.tbs i).cycleCount p.names
  let slot := { c.tbs i with header := tb, tcPtr := c.codeGenPtr, cycleCount := cycleCount }
  if p.aborts tb then none
  else if !p.completed then
    some { c with tbs := update c.tbs i slot, flags := p.last.flags }
  else
    let slot :=
      { slot with size := (p.last.dc.pc - tb.pc).toUInt16, icount := p.last.numInsns }
    some { c with
      tbs := update c.tbs i slot
      codeGenPtr := codeGenAlign (c.codeGenPtr + codeGenSize)
      flags := p.last.flags
      origin := update c.origin i (if page2Fault then none else some ⟨e, p⟩) }

/-- The translation that `cpu_restore_state` does of the block in entry `i`. -/
def retranslate (c : CodeCache) (i : ℕ) (e : TransEnv) : Pass :=
  genIntermediateCodeInternal e (c.tbs i).header true c.flags c.opcMap

/-- The arrays at the end of a pass with `search_pc = 1`, when `epilogueOps` operations have been
emitted after the loop. -/
def Pass.finishOpcMap (p : Pass) (epilogueOps : ℕ) : OpcMap :=
  p.last.opcMap.clearStarts p.last.lj (p.last.ops + epilogueOps + 1)

/-- `cpu_restore_state`, as far as it changes the cache. -/
def cpuRestoreState (insnMap : Option InsnMap) (c : CodeCache) (i : ℕ) (e : TransEnv)
    (epilogueOps : ℕ) : Option CodeCache := do
  let p := retranslate c i e
  let cycleCount ← charge insnMap (c.tbs i).cycleCount p.names
  let c :=
    { c with
      tbs := update c.tbs i { c.tbs i with cycleCount := cycleCount }
      flags := p.last.flags }
  if p.aborts (c.tbs i).header then none
  else if !p.completed then some c
  else
    some { c with opcMap := p.finishOpcMap epilogueOps }

/-- `do_singlestep`, the monitor command. -/
def doSinglestep (g : StepFlags) (option : Option String) : StepFlags :=
  match option with
  | none => { g with singlestep := true, allthruSinglestep := true }
  | some option =>
    if option == "on" then { g with singlestep := true, allthruSinglestep := true }
    else if option == "off" then { g with singlestep := false, allthruSinglestep := false }
    else g

/-- Everything that happens to the cache. -/
inductive CacheOp where
  | tbGenCode (e : TransEnv) (tb : TbHeader) (codeGenSize : ℕ) (page2Fault : Bool)
  | tbFree (i : ℕ)
  | tbFlush
  | cpuRestoreState (i : ℕ) (e : TransEnv) (epilogueOps : ℕ)
  | doSinglestep (option : Option String)

/-- One operation. A block handed to `tb_free` or `cpu_restore_state` is one that is allocated. -/
def cacheStep (z : CacheSize) (insnMap : Option InsnMap) (c : CodeCache) :
    CacheOp → Option CodeCache
  | .tbGenCode e tb codeGenSize page2Fault => tbGenCode z insnMap c e tb codeGenSize page2Fault
  | .tbFree i => if i < c.nbTbs then some (Translate.tbFree c i) else none
  | .tbFlush => Translate.tbFlush z c
  | .cpuRestoreState i e epilogueOps =>
    if i < c.nbTbs then Translate.cpuRestoreState insnMap c i e epilogueOps else none
  | .doSinglestep option => some { c with flags := Translate.doSinglestep c.flags option }

/-! ### What each operation does -/

/-- The entry that `tb_gen_code` uses. -/
def nextSlot (z : CacheSize) (c : CodeCache) : ℕ := if c.full z then 0 else c.nbTbs

/-- Only allocated entries hold live blocks. -/
def LiveAllocated (c : CodeCache) : Prop := ∀ i o, c.origin i = some o → i < c.nbTbs

variable {z : CacheSize} {insnMap : Option InsnMap} {c c' : CodeCache}

/-- Entry `i` has been allocated. -/
structure Allocated (i : ℕ) (c c' : CodeCache) : Prop where
  nbTbs : c'.nbTbs = i + 1
  others : ∀ j, j ≠ i → c'.tbs j = c.tbs j
  cycleCount : (c'.tbs i).cycleCount = (c.tbs i).cycleCount
  flags : c'.flags = c.flags
  opcMap : c'.opcMap = c.opcMap
  origin : ∀ j o, c'.origin j = some o → j < i ∧ c.origin j = some o

theorem allocated_of_tbAlloc {pc : UInt32} {i : ℕ} (hc : LiveAllocated c)
    (h : tbAlloc z c pc = some (c', i)) : i = c.nbTbs ∧ Allocated i c c' := by
  rw [tbAlloc] at h
  split at h
  · cases h
  cases h
  refine ⟨rfl, rfl, fun j hj => update_of_ne hj _ _, ?_, rfl, rfl, fun j o ho => ⟨hc j o ho, ho⟩⟩
  show (update c.tbs c.nbTbs _ c.nbTbs).cycleCount = _
  rw [update_self]

theorem Allocated.notLive {i : ℕ} (h : Allocated i c c') : c'.origin i = none := by
  rw [eq_none_iff_forall_ne_some]
  intro o ho
  exact Nat.lt_irrefl _ (h.origin i o ho).1

theorem allocated_of_allocTb {pc : UInt32} {i : ℕ} (hc : LiveAllocated c)
    (h : allocTb z c pc = some (c', i)) : i = nextSlot z c ∧ Allocated i c c' := by
  rw [allocTb] at h
  cases halloc : tbAlloc z c pc with
  | some r =>
    rw [halloc] at h
    cases h
    obtain ⟨rfl, hall⟩ := allocated_of_tbAlloc hc halloc
    refine ⟨?_, hall⟩
    rw [tbAlloc] at halloc
    split at halloc
    · cases halloc
    · rename_i hfull
      rw [nextSlot, if_neg hfull]
  | none =>
    rw [halloc] at h
    simp only [tbFlush] at h
    split at h
    · cases h
    -- after the flush the array is empty, so entry `0` is next
    rw [bind_some] at h
    obtain ⟨rfl, hall⟩ := allocated_of_tbAlloc (fun _ _ ho => absurd ho (by simp)) h
    refine ⟨?_, hall.nbTbs, hall.others, hall.cycleCount, hall.flags, hall.opcMap,
      fun j o ho => absurd (hall.origin j o ho).2 (by simp)⟩
    rw [tbAlloc] at halloc
    split at halloc
    · rename_i hfull
      rw [nextSlot, if_pos hfull]
    · cases halloc

/-- The translation of a new block. -/
def translateNew (c : CodeCache) (e : TransEnv) (tb : TbHeader) : Pass :=
  genIntermediateCodeInternal e tb false c.flags c.opcMap

/-- What `tb_gen_code` leaves when it put a block into entry `i`. -/
structure Generated (insnMap : Option InsnMap) (i : ℕ) (c : CodeCache) (e : TransEnv)
    (tb : TbHeader) (page2Fault : Bool) (c' : CodeCache) : Prop where
  nbTbs : c'.nbTbs = i + 1
  others : ∀ j, j ≠ i → c'.tbs j = c.tbs j
  header : (c'.tbs i).header = tb
  charged : charge insnMap (c.tbs i).cycleCount (translateNew c e tb).names =
    some (c'.tbs i).cycleCount
  icount : (translateNew c e tb).completed = true →
    (c'.tbs i).icount = (translateNew c e tb).last.numInsns
  flags : c'.flags = (translateNew c e tb).last.flags
  opcMap : c'.opcMap = c.opcMap
  originSlot : c'.origin i =
    if (translateNew c e tb).completed && !page2Fault then some ⟨e, translateNew c e tb⟩ else none
  originOther : ∀ j, j ≠ i → ∀ o, c'.origin j = some o → j < i ∧ c.origin j = some o

theorem generated_of_tbGenCode {e : TransEnv} {tb : TbHeader} {codeGenSize : ℕ}
    {page2Fault : Bool} (hc : LiveAllocated c)
    (h : tbGenCode z insnMap c e tb codeGenSize page2Fault = some c') :
    Generated insnMap (nextSlot z c) c e tb page2Fault c' := by
  simp only [tbGenCode, bind, bind_eq_some_iff] at h
  obtain ⟨⟨c₁, i⟩, halloc, cc, hcc, h⟩ := h
  obtain ⟨rfl, hall⟩ := allocated_of_allocTb hc halloc
  have hp : genIntermediateCodeInternal e tb false c₁.flags c₁.opcMap = translateNew c e tb := by
    rw [hall.flags, hall.opcMap]
    rfl
  dsimp only at hcc h
  rw [hp, hall.cycleCount] at hcc
  rw [hp] at h
  split at h
  · cases h
  split at h
  · -- abandoned: the entry stays allocated, and dead
    rename_i hfault
    have hcompleted : (translateNew c e tb).completed = false := by simpa using hfault
    cases h
    constructor
    · exact hall.nbTbs
    · intro j hj
      exact (update_of_ne hj _ _).trans (hall.others j hj)
    · show (update c₁.tbs _ _ _).header = tb
      rw [update_self]
    · show _ = some (update c₁.tbs _ _ _).cycleCount
      rw [update_self]
      exact hcc
    · intro h
      rw [hcompleted] at h
      cases h
    · rfl
    · exact hall.opcMap
    · rw [hcompleted]
      exact hall.notLive
    · intro j _ o ho
      exact hall.origin j o ho
  · rename_i hfault
    have hcompleted : (translateNew c e tb).completed = true := by simpa using hfault
    cases h
    constructor
    · exact hall.nbTbs
    · intro j hj
      exact (update_of_ne hj _ _).trans (hall.others j hj)
    · show (update c₁.tbs _ _ _).header = tb
      rw [update_self]
    · show _ = some (update c₁.tbs _ _ _).cycleCount
      rw [update_self]
      exact hcc
    · intro _
      show (update c₁.tbs _ _ _).icount = _
      rw [update_self]
    · rfl
    · exact hall.opcMap
    · show update c₁.origin _ _ _ = _
      rw [update_self, hcompleted]
      cases page2Fault <;> rfl
    · intro j hj o ho
      dsimp only at ho
      rw [update_of_ne hj] at ho
      exact hall.origin j o ho

/-- What `cpu_restore_state` leaves when it was asked about the block in entry `i`. -/
structure Restored (insnMap : Option InsnMap) (i : ℕ) (c : CodeCache) (e : TransEnv)
    (c' : CodeCache) : Prop where
  nbTbs : c'.nbTbs = c.nbTbs
  others : ∀ j, j ≠ i → c'.tbs j = c.tbs j
  header : (c'.tbs i).header = (c.tbs i).header
  icount : (c'.tbs i).icount = (c.tbs i).icount
  charged : charge insnMap (c.tbs i).cycleCount (retranslate c i e).names =
    some (c'.tbs i).cycleCount
  origin : c'.origin = c.origin

theorem restored_of_cpuRestoreState {i : ℕ} {e : TransEnv} {epilogueOps : ℕ}
    (h : cpuRestoreState insnMap c i e epilogueOps = some c') : Restored insnMap i c e c' := by
  simp only [cpuRestoreState, bind, bind_eq_some_iff] at h
  obtain ⟨cc, hcc, h⟩ := h
  have hrestored : ∀ (flags : StepFlags) (m : OpcMap),
      Restored insnMap i c e
        { c with
          tbs := update c.tbs i { c.tbs i with cycleCount := cc }
          flags := flags
          opcMap := m } := by
    intro flags m
    refine ⟨rfl, fun j hj => update_of_ne hj _ _, ?_, ?_, ?_, rfl⟩
    all_goals dsimp only; rw [update_self]
    exact hcc
  split at h
  · cases h
  split at h
  · cases h
    exact hrestored _ _
  · cases h
    exact hrestored _ _

/-- A block that is live after `tb_free` was live before, in the same entry, and is still
allocated. -/
theorem tbFree_live {i j : ℕ} {o : Origin} (hc : LiveAllocated c)
    (ho : (tbFree c i).origin j = some o) :
    c.origin j = some o ∧ (tbFree c i).tbs j = c.tbs j ∧ j < (tbFree c i).nbTbs := by
  unfold tbFree at ho ⊢
  split at ho
  · rename_i hlast
    rw [if_pos hlast]
    dsimp only at ho ⊢
    by_cases hj : j = i
    · rw [hj, update_self] at ho
      cases ho
    · rw [update_of_ne hj] at ho
      have := hc j o ho
      exact ⟨ho, rfl, by omega⟩
  · rename_i hlast
    rw [if_neg hlast]
    exact ⟨ho, rfl, hc j o ho⟩

/-- Where a block that is live after an operation comes from. It was live before and its entry is
untouched, or it has just been translated again, or it has just been generated. -/
inductive LiveFrom (z : CacheSize) (insnMap : Option InsnMap) (c c' : CodeCache) (i : ℕ)
    (o : Origin) : CacheOp → Prop where
  | kept (op : CacheOp) : c.origin i = some o → c'.tbs i = c.tbs i → LiveFrom z insnMap c c' i o op
  | retranslated (e : TransEnv) (epilogueOps : ℕ) :
    c.origin i = some o → Restored insnMap i c e c' →
      LiveFrom z insnMap c c' i o (.cpuRestoreState i e epilogueOps)
  | generated (e : TransEnv) (tb : TbHeader) (codeGenSize : ℕ) :
    i = nextSlot z c → (translateNew c e tb).completed = true → o = ⟨e, translateNew c e tb⟩ →
      Generated insnMap i c e tb false c' →
      LiveFrom z insnMap c c' i o (.tbGenCode e tb codeGenSize false)

/-- **What an operation can do to the live blocks.** -/
theorem liveFrom_of_step {op : CacheOp} {i : ℕ} {o : Origin} (hc : LiveAllocated c)
    (h : cacheStep z insnMap c op = some c') (ho : c'.origin i = some o) :
    LiveFrom z insnMap c c' i o op ∧ i < c'.nbTbs := by
  cases op with
  | tbGenCode e tb codeGenSize page2Fault =>
    have hgen := generated_of_tbGenCode hc h
    rw [hgen.nbTbs]
    by_cases hi : i = nextSlot z c
    · subst hi
      rw [hgen.originSlot] at ho
      split at ho
      · rename_i hlive
        obtain ⟨hcompleted, hpage⟩ := Bool.and_eq_true_iff.mp hlive
        obtain rfl : page2Fault = false := by simpa using hpage
        exact ⟨.generated e tb codeGenSize rfl hcompleted (some.inj ho).symm hgen, by omega⟩
      · cases ho
    · obtain ⟨hlt, hold⟩ := hgen.originOther i hi o ho
      exact ⟨.kept _ hold (hgen.others i hi), by omega⟩
  | tbFree k =>
    rw [cacheStep] at h
    split at h
    · cases h
      obtain ⟨hold, hsame, hlt⟩ := tbFree_live hc ho
      exact ⟨.kept _ hold hsame, hlt⟩
    · cases h
  | tbFlush =>
    simp only [cacheStep, Translate.tbFlush] at h
    split at h
    · cases h
    · cases h
      cases ho
  | cpuRestoreState k e epilogueOps =>
    rw [cacheStep] at h
    split at h
    · have hres := restored_of_cpuRestoreState h
      rw [hres.origin] at ho
      rw [hres.nbTbs]
      by_cases hi : i = k
      · subst hi
        exact ⟨.retranslated e epilogueOps ho hres, hc i o ho⟩
      · exact ⟨.kept _ ho (hres.others i hi), hc i o ho⟩
    · cases h
  | doSinglestep option =>
    cases h
    exact ⟨.kept _ ho rfl, hc i o ho⟩

theorem LiveAllocated.step {op : CacheOp} (hc : LiveAllocated c)
    (h : cacheStep z insnMap c op = some c') : LiveAllocated c' :=
  fun _ _ ho => (liveFrom_of_step hc h ho).2

/-! ### Exact counters -/

/-- **Every live block carries the cycles of its own instructions**, class by class, and nothing
else. -/
def Exact (insnMap : Option InsnMap) (c : CodeCache) : Prop :=
  ∀ i o, c.origin i = some o → ∀ k,
    (c.tbs i).cycleCount k = UInt64.ofNat (cyclesIn insnMap o.pass.names k)

/-- An operation that gives the counters no occasion to go wrong: a block that goes live does so
in an entry whose counters are zero, and a live block that is translated again is charged for
nothing. -/
def CleanStep (z : CacheSize) (insnMap : Option InsnMap) (c : CodeCache) : CacheOp → Prop
  | .tbGenCode e tb _ page2Fault =>
    (translateNew c e tb).completed = true → page2Fault = false →
      ∀ k, (c.tbs (nextSlot z c)).cycleCount k = 0
  | .cpuRestoreState i e _ =>
    (c.origin i).isSome → ∀ k, cyclesIn insnMap (retranslate c i e).names k % 2 ^ 64 = 0
  | _ => True

/-- A clean operation keeps the counters exact. -/
theorem Exact.step {op : CacheOp} (hc : LiveAllocated c) (hex : Exact insnMap c)
    (h : cacheStep z insnMap c op = some c') (hclean : CleanStep z insnMap c op) :
    Exact insnMap c' := by
  intro i o ho k
  rcases (liveFrom_of_step hc h ho).1 with ⟨_, hold, hsame⟩ | ⟨e, epilogueOps, hold, hres⟩ |
    ⟨e, tb, codeGenSize, rfl, hcompleted, rfl, hgen⟩
  · rw [hsame]
    exact hex i o hold k
  · have hzero := hclean (by rw [hold]; rfl) k
    rw [charge_eq_some hres.charged k, (add_ofNat_eq_self_iff _ _).mpr hzero]
    exact hex i o hold k
  · rw [charge_eq_some hgen.charged k, hclean hcompleted rfl k]
    grind

/-- And an operation that keeps them exact is clean. -/
theorem cleanStep_of_exact {op : CacheOp} (hc : LiveAllocated c) (hex : Exact insnMap c)
    (h : cacheStep z insnMap c op = some c') (hex' : Exact insnMap c') :
    CleanStep z insnMap c op := by
  cases op with
  | tbGenCode e tb codeGenSize page2Fault =>
    intro hcompleted hpage k
    have hgen := generated_of_tbGenCode hc h
    have horigin : c'.origin (nextSlot z c) = some ⟨e, translateNew c e tb⟩ := by
      rw [hgen.originSlot, hcompleted, hpage]
      rfl
    have hk := hex' _ _ horigin k
    rw [charge_eq_some hgen.charged k] at hk
    grind
  | cpuRestoreState i e epilogueOps =>
    intro hlive k
    rw [cacheStep] at h
    split at h
    · have hres := restored_of_cpuRestoreState h
      obtain ⟨o, ho⟩ := isSome_iff_exists.mp hlive
      have hk := hex' i o (by rw [hres.origin]; exact ho) k
      rw [charge_eq_some hres.charged k, hex i o ho k] at hk
      exact (add_ofNat_eq_self_iff _ _).mp hk
    · cases h
  | tbFree i | tbFlush | doSinglestep option => trivial

/-- **When the counters are exact.** In a run from program start, with arbitrary contents of the
array, every live block carries exactly its own cycles in every state reached if and only if every
operation of the run is clean. -/
theorem exact_along_run_iff {tbs : ℕ → TbSlot} {flags : StepFlags} {opcMap : OpcMap}
    {ops : List CacheOp} (h : run (cacheStep z insnMap) (initCache tbs flags opcMap) ops = some c) :
    (∀ p t, p <+: ops → run (cacheStep z insnMap) (initCache tbs flags opcMap) p = some t →
        Exact insnMap t) ↔
      ∀ p op t, p ++ [op] <+: ops →
        run (cacheStep z insnMap) (initCache tbs flags opcMap) p = some t →
        CleanStep z insnMap t op := by
  have hlive : ∀ p t, run (cacheStep z insnMap) (initCache tbs flags opcMap) p = some t →
      LiveAllocated t := fun p t ht =>
    run_invariant (fun _ _ _ hc hs => hc.step hs) (fun _ _ ho => absurd ho (by simp [initCache])) ht
  refine forall_prefix_iff (P := fun _ t => Exact insnMap t)
    (fun _ _ ho => absurd ho (by simp [initCache])) ?_ h
  intro p op s s' _ hs hstep hex
  exact ⟨cleanStep_of_exact (hlive p s hs) hex hstep, hex.step (hlive p s hs) hstep⟩

/-! ### A reused entry

The array is zeroed to begin with. A block of one branch, which takes three cycles, is generated,
the cache is flushed, and the block is generated again: in the same entry, on top of the three
cycles that are still there. -/

/-- Room for sixteen blocks. -/
def smallCache : CacheSize := ⟨16, 1024, 2048⟩

/-- A map with one instruction. -/
def branchMap : InsnMap := [⟨"BLX_reg", 3, BRANCH_ISN, false⟩]

/-- A zeroed array, and no error windows. -/
def zeroCache : CodeCache :=
  initCache (fun _ => ⟨⟨0, 0, 0⟩, 0, 0, 0, fun _ => 0⟩) ⟨false, false, false, (0, 0), false, (0, 0)⟩
    emptyOpcMap

/-- The block at address zero is generated. -/
def genBranch : CacheOp := .tbGenCode branchEnv ⟨0, 0, 0⟩ 32 false

theorem not_exact_after_flush :
    ¬ ∀ c, run (cacheStep smallCache (some branchMap)) zeroCache [genBranch, .tbFlush, genBranch] =
      some c → Exact (some branchMap) c := by
  intro hall
  have hcount : (run (cacheStep smallCache (some branchMap)) zeroCache
      [genBranch, .tbFlush, genBranch]).map (fun c => (c.tbs 0).cycleCount ⟨1, by decide⟩) =
      some 6 := by decide
  have hown : (run (cacheStep smallCache (some branchMap)) zeroCache
      [genBranch, .tbFlush, genBranch]).map
      (fun c => (c.origin 0).map fun o => cyclesIn (some branchMap) o.pass.names ⟨1, by decide⟩) =
      some (some 3) := by decide
  obtain ⟨c, hc, hcount⟩ := map_eq_some_iff.mp hcount
  rw [hc] at hown
  obtain ⟨o, ho, hown⟩ := map_eq_some_iff.mp (some.inj hown)
  have := hall c hc 0 o ho ⟨1, by decide⟩
  rw [hcount, hown] at this
  cases this

theorem exact_after_first_block :
    ∃ c, run (cacheStep smallCache (some branchMap)) zeroCache [genBranch] = some c ∧
      ∀ p t, p <+: [genBranch] → run (cacheStep smallCache (some branchMap)) zeroCache p = some t →
        Exact (some branchMap) t := by
  refine exists_of_isSome (by decide) fun c hc => (exact_along_run_iff hc).mpr ?_
  -- the only operation is the first one
  exact Along.cond ⟨fun _ _ k => rfl, fun _ _ => trivial⟩

end VariabilityTestbed.Translate
