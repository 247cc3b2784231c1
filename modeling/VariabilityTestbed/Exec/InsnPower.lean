import VariabilityTestbed.Translate.CodeCache
import VariabilityTestbed.Translate.InsnNames

/-!
# The energy of an instruction

When every block has one instruction and the board has a power model, `cpu_exec` asks the model for
the energy of the instruction before it starts a block. It passes `tb->insn_under_exec`, and the
model reads `insn_map[insn].cycle_count` without a check.

## What is in `insn_under_exec`

The decoders store the index while they translate, and only for instructions that have a name.
`tb_alloc` does not clear the field. So a block of an instruction without a name carries whatever
the entry had before, and without a variability file there is no map at all.
-/

namespace VariabilityTestbed.Exec

open Runs Translate Variability List Option

/-! ### The guest -/

/-- What a decoder does to the context, besides moving on. -/
structure Emitted where
  isJmp : IsJmp
  condjmp : Bool
  condexecMask : UInt32
  condexecCond : UInt32
  /-- The number of operations. -/
  ops : ℕ

/-- The guest code and the CPU. -/
structure GuestCpu where
  feature : ArmFeature → Bool
  /-- `ldl_code`, unless it faults. -/
  ldlCode : UInt32 → Option UInt32
  /-- `lduw_code`, unless it faults. -/
  lduwCode : UInt32 → Option UInt32
  breakpoints : List UInt32
  singlestepEnabled : Bool
  useIcount : Bool
  logTbOp : Bool
  emitted : DisasContext → Emitted

/-- The instruction at an address, and the address behind it. -/
def GuestCpu.fetch (g : GuestCpu) (thumb user : Bool) (pc : UInt32) : Option (GuestInsn × UInt32) :=
  if thumb then disasThumbInsn g.feature user g.lduwCode pc
  else disasArmInsn g.feature user g.ldlCode pc

/-- The context after a decoder. -/
def GuestCpu.next (g : GuestCpu) (dc : DisasContext) (pc : UInt32) : DisasContext :=
  let r := g.emitted dc
  { dc with
    pc := pc
    isJmp := r.isJmp
    condjmp := r.condjmp
    condexecMask := r.condexecMask
    condexecCond := r.condexecCond }

/-- A decoder. Nothing is recorded before a fetch that faults. -/
def GuestCpu.decode (g : GuestCpu) (thumb : Bool) (dc : DisasContext) : Decode :=
  match g.fetch thumb dc.user dc.pc with
  | none => .fault []
  | some (insn, pc) => .insn (g.next dc pc) insn.names (g.emitted dc).ops

/-- What a translation reads. -/
def GuestCpu.transEnv (g : GuestCpu) : TransEnv where
  isM := g.feature .M
  breakpoints := g.breakpoints
  singlestepEnabled := g.singlestepEnabled
  useIcount := g.useIcount
  logTbOp := g.logTbOp
  disasArmInsn := g.decode false
  disasThumbInsn := g.decode true

/-- The instruction at an address of a block. -/
def GuestCpu.insnAt (g : GuestCpu) (tb : TbHeader) (pc : UInt32) : Option (GuestInsn × UInt32) :=
  let dc := initDisasContext g.transEnv tb
  g.fetch dc.thumb dc.user pc

/-- The notes of the instruction at an address of a block. -/
def GuestCpu.notesAt (g : GuestCpu) (tb : TbHeader) (pc : UInt32) : List Note :=
  ((g.insnAt tb pc).map fun r => r.1.notes).getD []

/-- What a pass over a block does with names. -/
def GuestCpu.passNotes (g : GuestCpu) (tb : TbHeader) (p : Pass) : List Note :=
  p.rounds.flatMap fun r => g.notesAt tb r.startPc

/-! ### The field -/

/-- The cache, and `insn_under_exec` of its entries. -/
structure PowerState where
  cache : CodeCache
  insnUnderExec : ℕ → UInt16

/-- Program start. The contents of the array are arbitrary. -/
def initPowerState (tbs : ℕ → TbSlot) (flags : StepFlags) (opcMap : OpcMap)
    (insnUnderExec : ℕ → UInt16) :
    PowerState :=
  ⟨initCache tbs flags opcMap, insnUnderExec⟩

/-- Everything that happens to the cache. -/
inductive PowerOp where
  | tbGenCode (g : GuestCpu) (tb : TbHeader) (codeGenSize : ℕ) (page2Fault : Bool)
  | tbFree (i : ℕ)
  | tbFlush
  | cpuRestoreState (i : ℕ) (g : GuestCpu) (epilogueOps : ℕ)
  | doSinglestep (option : Option String)

/-- What an operation is to the cache. -/
def PowerOp.cacheOp : PowerOp → CacheOp
  | .tbGenCode g tb codeGenSize page2Fault => .tbGenCode g.transEnv tb codeGenSize page2Fault
  | .tbFree i => .tbFree i
  | .tbFlush => .tbFlush
  | .cpuRestoreState i g epilogueOps => .cpuRestoreState i g.transEnv epilogueOps
  | .doSinglestep option => .doSinglestep option

/-- The field of entry `i` after notes. -/
def PowerState.noted (s : PowerState) (insnMap : Option InsnMap) (i : ℕ) (notes : List Note) :
    Option (ℕ → UInt16) :=
  (performNotes insnMap ((s.cache.tbs i).cycleCount, s.insnUnderExec i) notes).map fun r =>
    Function.update s.insnUnderExec i r.2

/-- What an operation does to the field. -/
def PowerState.nextInsns (z : CacheSize) (insnMap : Option InsnMap) (s : PowerState) :
    PowerOp → Option (ℕ → UInt16)
  | .tbGenCode g tb _ _ =>
    s.noted insnMap (nextSlot z s.cache) (g.passNotes tb (translateNew s.cache g.transEnv tb))
  | .cpuRestoreState i g _ =>
    s.noted insnMap i (g.passNotes (s.cache.tbs i).header (retranslate s.cache i g.transEnv))
  | _ => some s.insnUnderExec

/-- One operation. -/
def powerStep (z : CacheSize) (insnMap : Option InsnMap) (s : PowerState) (op : PowerOp) :
    Option PowerState :=
  (cacheStep z insnMap s.cache op.cacheOp).bind fun c =>
    (s.nextInsns z insnMap op).map fun insns => ⟨c, insns⟩

/-! ### The lookup -/

/-- `serve_insn_power`. There is no result without a map, or outside of it. -/
def serveInsnPower (insnMap : Option InsnMap) (insn : UInt16) : Option UInt8 :=
  insnMap.bind fun m => m[insn.toNat]?.map InsnEntry.cycleCount

/-- `INSTRUCTIONS_AVAILABLE`. -/
def INSTRUCTIONS_AVAILABLE : ℕ := 114

/-- The field of entry `i` is the index of a name of the one instruction that the block was
translated from. -/
def NamesInsn (m : InsnMap) (s : PowerState) (i : ℕ) (o : Origin) : Prop :=
  ∃ r name, o.pass.rounds = [r] ∧ name ∈ r.names ∧
    getMapEntry m name = some (s.insnUnderExec i).toNat

/-- **The lookups are in range.** Whenever `cpu_exec` can ask about a block, there is a map, and the
index is in it and names the instruction. -/
def LookupsInRange (insnMap : Option InsnMap) (s : PowerState) : Prop :=
  ∀ i o, s.cache.origin i = some o → s.cache.flags.singlestep = true →
    ∃ m, insnMap = some m ∧ (s.insnUnderExec i).toNat < INSTRUCTIONS_AVAILABLE ∧ NamesInsn m s i o ∧
      (serveInsnPower insnMap (s.insnUnderExec i)).isSome

/-- A map with the names of `arm_instructions`, which no configuration changes. -/
def IsArmMap (m : InsnMap) : Prop := m.map InsnEntry.instruction = armNames

/-- A translation gets to the first instruction of a block, which has a name, and ends behind it. -/
def GuestCpu.StepsNamed (g : GuestCpu) (tb : TbHeader) (flags : StepFlags) : Prop :=
  atExceptionExit g.transEnv tb.pc = false ∧ g.breakpoints.contains tb.pc = false ∧
    ∀ insn pc, g.insnAt tb tb.pc = some (insn, pc) →
      insn.named = true ∧ (updateWindows flags pc).singlestep = true

/-- Every translation is of one instruction that has a name. When a block is translated again, its
guest code is what it was. -/
def NamedStep (s : PowerState) : PowerOp → Prop
  | .tbGenCode g tb _ _ => g.StepsNamed tb s.cache.flags
  | .cpuRestoreState i g _ =>
    ∀ o, s.cache.origin i = some o → g.transEnv = o.env ∧
      g.StepsNamed (s.cache.tbs i).header s.cache.flags
  | _ => True

/-! ### Maps -/

variable {m : InsnMap}

theorem IsArmMap.length (hm : IsArmMap m) : m.length = INSTRUCTIONS_AVAILABLE := by
  have h := congrArg List.length hm
  rw [length_map] at h
  exact h

theorem getMapEntry_lt {name : String} {k : ℕ} (h : getMapEntry m name = some k) : k < m.length :=
  (findIdx?_eq_some_iff_findIdx_eq.mp h).1

variable {insn : GuestInsn}

/-- No lookup of a decoder fails. -/
theorem IsArmMap.exists_getMapEntry (hm : IsArmMap m) {name : String} (h : name ∈ insn.names) :
    ∃ k, getMapEntry m name = some k := by
  obtain ⟨e, he, rfl⟩ := List.mem_map.mp (hm ▸ insn.known_names name h)
  refine isSome_iff_exists.mp (findIdx?_isSome.trans ?_)
  exact List.any_eq_true.mpr ⟨e, he, beq_self_eq_true _⟩

theorem index_of_variabilityCountersManip {cc : ClassArray} {name : String}
    {r : ClassArray × UInt16}
    (hm : IsArmMap m) (h : variabilityCountersManip (some m) cc name = some r) :
    getMapEntry m name = some r.2.toNat := by
  simp only [variabilityCountersManip, bind, bind_eq_some_iff] at h
  obtain ⟨k, hk, e, -, cc', -, hr⟩ := h
  cases hr
  have hlt : k < UInt16.size :=
    Nat.lt_trans (hm.length ▸ getMapEntry_lt hk) (by decide : INSTRUCTIONS_AVAILABLE < UInt16.size)
  rw [hk]
  exact congrArg some (UInt16.toNat_ofNat_of_lt hlt).symm

/-- After notes that all store an index, the field is the index of one of the names. -/
theorem index_of_performNotes (hm : IsArmMap m) {notes : List Note} {tb r : ClassArray × UInt16}
    (hne : notes ≠ []) (hall : ∀ n ∈ notes, n.recorded = true)
    (h : performNotes (some m) tb notes = some r) :
    ∃ name ∈ notes.filterMap Note.name?, getMapEntry m name = some r.2.toNat := by
  induction notes generalizing tb with
  | nil => exact absurd rfl hne
  | cons n notes ih =>
    obtain ⟨hn, hnotes⟩ := forall_mem_cons.mp hall
    obtain ⟨tb', htb', hrest⟩ := bind_eq_some_iff.mp h
    cases n with
    | charge name | sentinel => cases hn
    | record name =>
      rw [filterMap_cons_some (Note.name?_record name)]
      by_cases hnil : notes = []
      · subst hnil
        cases hrest
        exact ⟨name, .head _, index_of_variabilityCountersManip hm htb'⟩
      · obtain ⟨x, hx, hk⟩ := ih hnil hnotes hrest
        exact ⟨x, .tail _ hx, hk⟩

/-! ### Translations -/

variable {g : GuestCpu} {tb : TbHeader} {flags : StepFlags}

/-- The names of the first instruction of a block. -/
def headNames (e : TransEnv) (tb : TbHeader) : List String :=
  match disasInsn e (initDisasContext e tb) with
  | .insn _ names _ => names
  | .fault names => names

/-- The context after an instruction. -/
def GuestCpu.after (g : GuestCpu) (dc : DisasContext) (pc : UInt32) : DisasContext :=
  if dc.thumb then (g.next dc pc).advanceIt else g.next dc pc

/-- What a decoder makes of an instruction. -/
theorem disasInsn_transEnv (g : GuestCpu) (dc : DisasContext) :
    disasInsn g.transEnv dc = match g.fetch dc.thumb dc.user dc.pc with
      | none => .fault []
      | some (insn, pc) => .insn (g.after dc pc) insn.names (g.emitted dc).ops := by
  rw [disasInsn]
  cases hthumb : dc.thumb with
  | true =>
    change (match g.decode true dc with
      | .insn dc names ops => Decode.insn dc.advanceIt names ops
      | .fault names => .fault names) = _
    rw [GuestCpu.decode]
    cases g.fetch true dc.user dc.pc with
    | none => rfl
    | some r =>
      dsimp only
      rw [GuestCpu.after, if_pos hthumb]
  | false =>
    change g.decode false dc = _
    rw [GuestCpu.decode]
    cases g.fetch false dc.user dc.pc with
    | none => rfl
    | some r =>
      dsimp only
      rw [GuestCpu.after, if_neg (Bool.eq_false_iff.mp hthumb)]

/-- No decoder changes the instruction set or the mode. -/
theorem GuestCpu.after_spec (g : GuestCpu) (dc : DisasContext) (pc : UInt32) :
    (g.after dc pc).pc = pc ∧ (g.after dc pc).thumb = dc.thumb ∧
    (g.after dc pc).user = dc.user := by
  rw [GuestCpu.after, DisasContext.advanceIt]
  split_ifs <;> exact ⟨rfl, rfl, rfl⟩

variable {pc : UInt32}

theorem disasInsn_of_insnAt (h : g.insnAt tb tb.pc = some (insn, pc)) :
    ∃ dc ops, DisasContext.pc dc = pc ∧
      disasInsn g.transEnv (initDisasContext g.transEnv tb) = .insn dc insn.names ops := by
  refine ⟨g.after (initDisasContext g.transEnv tb) pc,
    (g.emitted (initDisasContext g.transEnv tb)).ops, (g.after_spec _ pc).1,
    (disasInsn_transEnv g _).trans ?_⟩
  change (match g.insnAt tb tb.pc with | none => _ | some (insn, pc) => _) = _
  rw [h]

theorem disasInsn_of_fault (h : g.insnAt tb tb.pc = none) :
    disasInsn g.transEnv (initDisasContext g.transEnv tb) = .fault [] := by
  rw [disasInsn_transEnv]
  change (match g.insnAt tb tb.pc with | none => _ | some (insn, pc) => _) = _
  rw [h]

theorem headNames_of_insnAt (h : g.insnAt tb tb.pc = some (insn, pc)) :
    headNames g.transEnv tb = insn.names := by
  obtain ⟨dc, ops, -, hdc⟩ := disasInsn_of_insnAt h
  rw [headNames, hdc]

variable {searchPc : Bool}

/-- A round is charged for the names of its instruction. -/
theorem names_of_mem_rounds {opcMap : OpcMap} :
    ∀ r ∈ (genIntermediateCodeInternal g.transEnv tb searchPc flags opcMap).rounds,
      r.names = (g.notesAt tb r.startPc).filterMap Note.name? := by
  have hround :
      ∀ (dc dc' : DisasContext) names ops, dc.thumb = (initDisasContext g.transEnv tb).thumb →
      dc.user = (initDisasContext g.transEnv tb).user → disasInsn g.transEnv dc =
      .insn dc' names ops →
      names = (g.notesAt tb dc.pc).filterMap Note.name? ∧ dc'.thumb = dc.thumb ∧
      dc'.user = dc.user := by
    intro dc dc' names ops hthumb huser h
    rw [disasInsn_transEnv, hthumb, huser] at h
    rw [GuestCpu.notesAt, GuestCpu.insnAt]
    cases hfetch : g.fetch (initDisasContext g.transEnv tb).thumb
      (initDisasContext g.transEnv tb).user dc.pc with
    | none => rw [hfetch] at h; cases h
    | some q =>
      rw [hfetch] at h
      cases h
      exact ⟨rfl, (g.after_spec dc q.2).2⟩
  refine insnLoop_induction (P := fun s p => s.dc.thumb = (initDisasContext g.transEnv tb).thumb →
      s.dc.user = (initDisasContext g.transEnv tb).user →
      ∀ r ∈ p.rounds, r.names = (g.notesAt tb r.startPc).filterMap Note.name?) ?_ ?_ ?_ _ _ rfl rfl
  · intro s s' ending _ _ _ _ _ _ _ r hr
    cases hr
  · intro s dc names ops hdc hthumb huser r hr
    obtain rfl := mem_singleton.mp hr
    exact (hround s.dc dc names ops hthumb huser hdc).1
  · intro s dc names ops p hdc ih hthumb huser r hr
    obtain ⟨hnames, hthumb', huser'⟩ := hround s.dc dc names ops hthumb huser hdc
    rcases mem_cons.mp hr with rfl | hr
    · exact hnames
    · refine ih ?_ ?_ r hr
      · rw [← hthumb, ← hthumb', afterInsn]
        dsimp only
        split_ifs <;> rfl
      · rw [← huser, ← huser', afterInsn]
        dsimp only
        split_ifs <;> rfl

/-- **The notes have the names that the cache charges a block for.** -/
theorem names_pass {opcMap : OpcMap}
    (hcompleted : (genIntermediateCodeInternal g.transEnv tb searchPc flags opcMap).completed =
      true) :
    (genIntermediateCodeInternal g.transEnv tb searchPc flags opcMap).names =
      (g.passNotes tb (genIntermediateCodeInternal g.transEnv tb searchPc flags opcMap)).filterMap
        Note.name? := by
  have hnames : ∀ r ∈ (genIntermediateCodeInternal g.transEnv tb searchPc flags opcMap).rounds,
      r.names = (g.notesAt tb r.startPc).filterMap Note.name? := names_of_mem_rounds
  generalize genIntermediateCodeInternal g.transEnv tb searchPc flags opcMap = p
    at hcompleted hnames ⊢
  rw [GuestCpu.passNotes, filterMap_flatMap, ← flatMap_congr hnames]
  obtain ⟨rounds, last, ending⟩ := p
  cases ending with
  | fault names => cases hcompleted
  | condition | exceptionExit | breakpoint => exact append_nil _

theorem exists_maxInsns (tb : TbHeader) : ∃ k, tb.maxInsns = k + 1 := by
  refine Nat.exists_eq_succ_of_ne_zero fun hzero => ?_
  rw [TbHeader.maxInsns] at hzero
  split at hzero
  · cases hzero
  next hne => exact hne (UInt16.toNat_inj.mp hzero)

/-- Such a translation is of the first instruction only. -/
theorem GuestCpu.StepsNamed.rounds (h : g.StepsNamed tb flags)
    (hinsn : g.insnAt tb tb.pc = some (insn, pc)) (searchPc : Bool) (opcMap : OpcMap) :
    ∃ r, (genIntermediateCodeInternal g.transEnv tb searchPc flags opcMap).rounds = [r] ∧
    r.startPc = tb.pc ∧
      r.names = insn.names := by
  obtain ⟨hexit, hbreak, hnamed⟩ := h
  obtain ⟨k, hk⟩ := exists_maxInsns tb
  obtain ⟨dc, ops, rfl, hdc⟩ := disasInsn_of_insnAt hinsn
  obtain ⟨-, hstep⟩ := hnamed insn dc.pc hinsn
  rw [genIntermediateCodeInternal, hk, insnLoop]
  rw [if_neg (by exact Bool.eq_false_iff.mp hexit), if_neg (by exact Bool.eq_false_iff.mp hbreak)]
  rw [show disasInsn g.transEnv (initLoopState g.transEnv tb flags opcMap).dc = _ from hdc]
  dsimp only
  rw [if_neg]
  · exact ⟨_, rfl, rfl, rfl⟩
  · intro hcont
    obtain ⟨-, hoff⟩ := Bool.and_eq_true_iff.mp hcont
    exact Bool.false_ne_true (((Bool.not_eq_true' _).mp hoff).symm.trans hstep)

/-- And a translation that faults has no instructions. -/
theorem GuestCpu.StepsNamed.rounds_of_fault (h : g.StepsNamed tb flags)
    (hfault : g.insnAt tb tb.pc = none) (searchPc : Bool) (opcMap : OpcMap) :
    (genIntermediateCodeInternal g.transEnv tb searchPc flags opcMap).completed = false ∧
      (genIntermediateCodeInternal g.transEnv tb searchPc flags opcMap).rounds = [] := by
  obtain ⟨hexit, hbreak, -⟩ := h
  obtain ⟨k, hk⟩ := exists_maxInsns tb
  have hpass : genIntermediateCodeInternal g.transEnv tb searchPc flags opcMap =
      ⟨[], initLoopState g.transEnv tb flags opcMap, .fault []⟩ := by
    rw [genIntermediateCodeInternal, hk, insnLoop]
    rw [if_neg (by exact Bool.eq_false_iff.mp hexit), if_neg (by exact Bool.eq_false_iff.mp hbreak)]
    rw [show disasInsn g.transEnv (initLoopState g.transEnv tb flags opcMap).dc = _ from
      disasInsn_of_fault hfault]
  rw [hpass]
  exact ⟨rfl, rfl⟩

/-- What such a translation does with names. -/
theorem GuestCpu.StepsNamed.passNotes (h : g.StepsNamed tb flags)
    (hinsn : g.insnAt tb tb.pc = some (insn, pc)) (searchPc : Bool) (opcMap : OpcMap) :
    g.passNotes tb (genIntermediateCodeInternal g.transEnv tb searchPc flags opcMap) =
      insn.notes := by
  obtain ⟨r, hr, hstart, -⟩ := h.rounds hinsn searchPc opcMap
  rw [GuestCpu.passNotes, hr, flatMap_singleton, hstart, GuestCpu.notesAt, hinsn]
  rfl

variable {insns : ℕ → UInt16}

/-- The index that such a translation leaves in an entry. -/
theorem GuestCpu.StepsNamed.noted (hm : IsArmMap m) (h : g.StepsNamed tb flags)
    (hinsn : g.insnAt tb tb.pc = some (insn, pc)) {opcMap : OpcMap} {s : PowerState} {i : ℕ}
    (hnoted : s.noted (some m) i (g.passNotes tb
      (genIntermediateCodeInternal g.transEnv tb searchPc flags opcMap)) = some insns) :
    ∃ name ∈ headNames g.transEnv tb, getMapEntry m name = some (insns i).toNat := by
  rw [h.passNotes hinsn] at hnoted
  obtain ⟨r, hr, rfl⟩ := map_eq_some_iff.mp hnoted
  obtain ⟨hne, hall⟩ := GuestInsn.recorded_of_named (h.2.2 insn pc hinsn).1
  rw [headNames_of_insnAt hinsn, Function.update_self]
  exact index_of_performNotes hm hne hall hr

variable {insnMap : Option InsnMap}

theorem noted_of_ne {s : PowerState} {i j : ℕ} {notes : List Note}
    (h : s.noted insnMap i notes = some insns) (hj : j ≠ i) : insns j = s.insnUnderExec j := by
  obtain ⟨r, -, rfl⟩ := map_eq_some_iff.mp h
  exact Function.update_of_ne hj _ _

/-! ### Runs -/

/-- Every live block is of one instruction, and carries the index of one of its names. -/
def NamedLive (m : InsnMap) (s : PowerState) : Prop :=
  ∀ i o, s.cache.origin i = some o →
    ∃ r, o.pass.rounds = [r] ∧ r.names = headNames o.env (s.cache.tbs i).header ∧
      ∃ name ∈ headNames o.env (s.cache.tbs i).header, getMapEntry m name =
      some (s.insnUnderExec i).toNat

variable {z : CacheSize} {s s' : PowerState} {op : PowerOp}

/-- A block that has just been generated. -/
theorem namedLive_tbGenCode (hm : IsArmMap m) (hc : LiveAllocated s.cache) (hs : NamedLive m s)
    {codeGenSize : ℕ} {page2Fault : Bool} (hop : g.StepsNamed tb s.cache.flags) {c : CodeCache}
    (hcache : tbGenCode z (some m) s.cache g.transEnv tb codeGenSize page2Fault = some c)
    (hinsns : s.noted (some m) (nextSlot z s.cache)
      (g.passNotes tb (translateNew s.cache g.transEnv tb)) = some insns) :
    NamedLive m ⟨c, insns⟩ := by
  intro i o ho
  have hgen := generated_of_tbGenCode hc hcache
  by_cases hi : i = nextSlot z s.cache
  · subst hi
    change c.origin (nextSlot z s.cache) = some o at ho
    rw [hgen.originSlot] at ho
    split at ho
    next hlive =>
      cases ho
      cases hinsn : g.insnAt tb tb.pc with
      | none =>
        have hfault := (hop.rounds_of_fault hinsn false s.cache.opcMap).1
        exact absurd (hfault.symm.trans (Bool.and_eq_true_iff.mp hlive).1) Bool.false_ne_true
      | some r =>
        obtain ⟨round, hround, -, hnames⟩ := hop.rounds hinsn false s.cache.opcMap
        refine ⟨round, hround, ?_, ?_⟩
        · rw [hnames, hgen.header, headNames_of_insnAt hinsn]
        · rw [hgen.header]
          exact hop.noted hm hinsn hinsns
    next => cases ho
  · obtain ⟨-, hold⟩ := hgen.originOther i hi o ho
    obtain ⟨r, hr, hnames, hindex⟩ := hs i o hold
    change ∃ r, o.pass.rounds = [r] ∧ r.names = headNames o.env (c.tbs i).header ∧
      ∃ name ∈ headNames o.env (c.tbs i).header, getMapEntry m name = some (insns i).toNat
    rw [hgen.others i hi, noted_of_ne hinsns hi]
    exact ⟨r, hr, hnames, hindex⟩

/-- A block that has just been translated again. -/
theorem namedLive_cpuRestoreState (hm : IsArmMap m) (hs : NamedLive m s) {k epilogueOps : ℕ}
    (hop : ∀ o, s.cache.origin k = some o →
      g.transEnv = o.env ∧ g.StepsNamed (s.cache.tbs k).header s.cache.flags) {c : CodeCache}
    (hcache : cpuRestoreState (some m) s.cache k g.transEnv epilogueOps = some c)
    (hinsns : s.noted (some m) k
      (g.passNotes (s.cache.tbs k).header (retranslate s.cache k g.transEnv)) = some insns) :
    NamedLive m ⟨c, insns⟩ := by
  intro i o ho
  have hres := restored_of_cpuRestoreState hcache
  change c.origin i = some o at ho
  rw [hres.origin] at ho
  obtain ⟨r, hr, hnames, hindex⟩ := hs i o ho
  change ∃ r, o.pass.rounds = [r] ∧ r.names = headNames o.env (c.tbs i).header ∧
    ∃ name ∈ headNames o.env (c.tbs i).header, getMapEntry m name = some (insns i).toNat
  by_cases hi : i = k
  · subst hi
    obtain ⟨henv, hnamed⟩ := hop o ho
    rw [hres.header]
    refine ⟨r, hr, hnames, ?_⟩
    cases hinsn : g.insnAt (s.cache.tbs i).header (s.cache.tbs i).header.pc with
    | none =>
      -- the block was generated from the same code, which could be read then
      obtain ⟨name, hname, -⟩ := hindex
      rw [← henv, headNames, disasInsn_of_fault hinsn] at hname
      cases hname
    | some q =>
      rw [← henv]
      exact hnamed.noted hm hinsn hinsns
  · rw [hres.others i hi, noted_of_ne hinsns hi]
    exact ⟨r, hr, hnames, hindex⟩

/-- **One operation.** -/
theorem NamedLive.step (hm : IsArmMap m) (hc : LiveAllocated s.cache) (hs : NamedLive m s)
    (hop : NamedStep s op) (h : powerStep z (some m) s op = some s') : NamedLive m s' := by
  obtain ⟨c, hcache, hrest⟩ := bind_eq_some_iff.mp h
  obtain ⟨insns, hinsns, rfl⟩ := map_eq_some_iff.mp hrest
  cases op with
  | tbGenCode g tb codeGenSize page2Fault => exact namedLive_tbGenCode hm hc hs hop hcache hinsns
  | cpuRestoreState k g epilogueOps =>
    change (if k < s.cache.nbTbs then _ else none) = some c at hcache
    split at hcache
    · exact namedLive_cpuRestoreState hm hs hop hcache hinsns
    · cases hcache
  | tbFree k =>
    change (if k < s.cache.nbTbs then _ else none) = some c at hcache
    split at hcache
    · cases hcache
      cases hinsns
      intro i o ho
      obtain ⟨hold, hsame, -⟩ := tbFree_live hc ho
      change ∃ r, o.pass.rounds = [r] ∧
        r.names = headNames o.env ((tbFree s.cache k).tbs i).header ∧ _
      rw [hsame]
      exact hs i o hold
    · cases hcache
  | tbFlush =>
    change (if s.cache.codeGenPtr > z.bufferSize then none else _) = some c at hcache
    split at hcache
    · cases hcache
    · cases hcache
      intro i o ho
      cases ho
  | doSinglestep option =>
    cases hcache
    cases hinsns
    exact hs

/-- Names give lookups in range. -/
theorem NamedLive.lookupsInRange (hm : IsArmMap m) (hs : NamedLive m s) :
    LookupsInRange (some m) s := by
  intro i o ho _
  obtain ⟨r, hr, hnames, name, hname, hindex⟩ := hs i o ho
  have hlt := getMapEntry_lt hindex
  refine ⟨m, rfl, hm.length ▸ hlt, ⟨r, name, hr, hnames ▸ hname, hindex⟩, ?_⟩
  rw [serveInsnPower, bind_some, getElem?_eq_getElem hlt]
  rfl

theorem LiveAllocated.powerStep (hc : LiveAllocated s.cache)
    (h : powerStep z insnMap s op = some s') : LiveAllocated s'.cache := by
  obtain ⟨c, hcache, hrest⟩ := bind_eq_some_iff.mp h
  obtain ⟨insns, -, rfl⟩ := map_eq_some_iff.mp hrest
  exact hc.step hcache

/-- **Every lookup is in range**, in runs with a variability file in which each translation is of
one instruction that has a name. -/
theorem insn_power_in_range (hm : IsArmMap m) {tbs : ℕ → TbSlot} {flags : StepFlags}
    {opcMap : OpcMap} {insns : ℕ → UInt16} {ops : List PowerOp}
    (h : Along (powerStep z (some m)) NamedStep (initPowerState tbs flags opcMap insns) ops) :
    ∀ p t, p <+: ops → run (powerStep z (some m)) (initPowerState tbs flags opcMap insns) p =
      some t → LookupsInRange (some m) t := by
  intro p t hp ht
  have hinv : LiveAllocated t.cache ∧ NamedLive m t := by
    refine h.forall_prefix (P := fun s => LiveAllocated s.cache ∧ NamedLive m s) ?_ ?_ p t hp ht
    · rintro s op s' ⟨hc, hs⟩ hop hstep
      exact ⟨LiveAllocated.powerStep hc hstep, hs.step hm hc hop hstep⟩
    · exact ⟨fun _ _ ho => absurd ho (by simp [initPowerState, initCache]),
        fun _ _ ho => absurd ho (by simp [initPowerState, initCache])⟩
  exact hinv.2.lookupsInRange hm

/-! ### Runs of one translation -/

/-- A guest whose code is one instruction, over and over. -/
def guestOf (word : UInt32) : GuestCpu where
  feature f := f != .M
  ldlCode _ := some word
  lduwCode _ := none
  breakpoints := []
  singlestepEnabled := false
  useIcount := false
  logTbOp := false
  emitted dc := ⟨dc.isJmp, dc.condjmp, dc.condexecMask, dc.condexecCond, 4⟩

/-- Single-stepping throughout, with arbitrary contents of the field. -/
def steppingState : PowerState :=
  initPowerState (fun _ => ⟨⟨0, 0, 0⟩, 0, 0, 0, fun _ => 0⟩) ⟨true, true, false, (0, 0), false,
    (0, 0)⟩ emptyOpcMap
    fun _ => 0xffff

/-- A block of that instruction is generated. -/
def genInsn (word : UInt32) : PowerOp := .tbGenCode (guestOf word) ⟨0, 0, 0⟩ 32 false

/-- What `cpu_exec` finds in the first block. -/
def firstLookup (insnMap : Option InsnMap) (s : PowerState) : Bool × Bool × UInt16 × Option UInt8 :=
  ((s.cache.origin 0).isSome, s.cache.flags.singlestep, s.insnUnderExec 0,
    serveInsnPower insnMap (s.insnUnderExec 0))

theorem not_lookupsInRange_of_firstLookup {insn : UInt16}
    (h : firstLookup insnMap s = (true, true, insn, none)) : ¬ LookupsInRange insnMap s := by
  intro hrange
  obtain ⟨hlive, h⟩ := Prod.mk.inj h
  obtain ⟨hstep, h⟩ := Prod.mk.inj h
  obtain ⟨o, ho⟩ := isSome_iff_exists.mp hlive
  obtain ⟨m, -, -, -, hserve⟩ := hrange 0 o ho hstep
  rw [(Prod.mk.inj h).2] at hserve
  cases hserve

/-- `add r0, r0, r1` without a variability file, and `mov r0, r1` with one. -/
theorem insn_power_out_of_range :
    (∃ s, run (powerStep smallCache none) steppingState [genInsn 0xe0800001] = some s ∧
        ¬ LookupsInRange none s) ∧
      ∃ s, run (powerStep smallCache (some armInstructions)) steppingState
        [genInsn 0xe1a00001] = some s ∧
        ¬ LookupsInRange (some armInstructions) s := by
  constructor
  · exact exists_of_map (firstLookup none) (true, true, 0xffff, none) (by decide +kernel)
      fun s _ hfirst => not_lookupsInRange_of_firstLookup hfirst
  · exact exists_of_map (firstLookup (some armInstructions)) (true, true, 0xffff, none)
      (by decide +kernel)
      fun s _ hfirst => not_lookupsInRange_of_firstLookup hfirst

/-- `add r0, r0, r1` with a variability file. -/
theorem insn_power_of_add :
    ∃ s, run (powerStep smallCache (some armInstructions)) steppingState
      [genInsn 0xe0800001] = some s ∧
      s.cache.flags.singlestep = true ∧ s.insnUnderExec 0 = 1 ∧
      LookupsInRange (some armInstructions) s := by
  refine exists_of_map (firstLookup (some armInstructions)) (true, true, 1, some 0)
    (by decide +kernel)
    fun s hs hfirst => ?_
  obtain ⟨-, hfirst⟩ := Prod.mk.inj hfirst
  obtain ⟨hstep, hfirst⟩ := Prod.mk.inj hfirst
  have halong : Along (powerStep smallCache (some armInstructions)) NamedStep steppingState
      [genInsn 0xe0800001] := by
    refine ⟨⟨by decide, by decide, ?_⟩, fun _ _ => trivial⟩
    intro insn pc hinsn
    have hfetch : (guestOf 0xe0800001).insnAt ⟨0, 0, 0⟩ 0 = some (⟨.arm .add, 1⟩, 4) := rfl
    obtain ⟨rfl, rfl⟩ := Prod.mk.inj (some.inj (hfetch.symm.trans hinsn))
    exact ⟨rfl, rfl⟩
  exact ⟨hstep, (Prod.mk.inj hfirst).1, insn_power_in_range rfl halong _ s prefix_rfl hs⟩

/-- Names that are found are charged. -/
theorem exists_charge (hm : ∀ e ∈ m, e.Chargeable) {names : List String}
    (h : ∀ name ∈ names, ∃ k, getMapEntry m name = some k) (cc : ClassArray) :
    ∃ cc', charge (some m) cc names = some cc' := by
  induction names generalizing cc with
  | nil => exact ⟨cc, rfl⟩
  | cons name names ih =>
    obtain ⟨⟨k, hk⟩, hnames⟩ := forall_mem_cons.mp h
    have hlt := getMapEntry_lt hk
    obtain ⟨cc₁, hinc⟩ : ∃ cc₁, incrementCycleCounter cc m[k] = some cc₁ := by
      rw [incrementCycleCounter]
      split_ifs with hzero
      · exact ⟨cc, rfl⟩
      · exact isSome_iff_exists.mp (isSome_map.trans ((hm _ (getElem_mem hlt)).resolve_left hzero))
    obtain ⟨cc', hcc⟩ := ih hnames cc₁
    exact ⟨cc', by simp [charge, variabilityCountersManip, hk, getElem?_eq_getElem hlt, hinc, hcc]⟩

end VariabilityTestbed.Exec
