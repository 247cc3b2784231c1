import VariabilityTestbed.Translate.CodeCache

/-!
# Translating a block again

When an access faults in the middle of a block, `cpu_restore_state` translates the block once more
and looks up which instruction the host address belongs to. That only works if the second pass
goes through the same instructions as the first. Guest code and breakpoints are the same; the
flags need not be: the monitor, the error windows and every other translation change `singlestep`
in between, and `singlestep` ends a block after one instruction.

## The argument

Apart from the flags two passes over one block do the same, so the second pass follows the first
until one of them stops. `Stops` says, of the instructions of the first pass, that the flags let
the second pass through all of them and stop it after the last. `same_rounds_iff` is the
induction along the loop, and `reproduces_iff` puts it on reachable states of the cache.

The second half, that every operation is then mapped back to an instruction of the block, is a
property of the arrays alone: `mapsBack_insnLoop`.
-/

namespace VariabilityTestbed.Translate

open Runs Variability List Option Function

variable {e : TransEnv} {tb : TbHeader}

/-! ### Two passes over one block -/

/-- Two states of the loop that agree on everything but the flags and the arrays. -/
structure SameCode (s t : LoopState) : Prop where
  dc : s.dc = t.dc
  ops : s.ops = t.ops
  numInsns : s.numInsns = t.numInsns

theorem SameCode.afterInsn {s t : LoopState} (h : SameCode s t) (b b' : Bool)
    (dc : DisasContext) (ops : ℕ) :
    SameCode (Translate.afterInsn e tb b s dc ops) (Translate.afterInsn e tb b' t dc ops) where
  dc := rfl
  ops := by simp [Translate.afterInsn, opsBefore, h.ops, h.numInsns]
  numInsns := by simp [h.numInsns]

theorem SameCode.mayContinue {s t : LoopState} (h : SameCode s t) :
    mayContinue e tb s = mayContinue e tb t := by
  simp [Translate.mayContinue, h.dc, h.ops, h.numInsns]

/-- At `pc` the loop is left before an instruction is translated. -/
def leavesAt (e : TransEnv) (pc : UInt32) : Bool :=
  atExceptionExit e pc || e.breakpoints.contains pc

/-- The block ends where the pass `p` ended it, whatever `singlestep` says. -/
def endsAnyway (e : TransEnv) (tb : TbHeader) (p : Pass) : Bool :=
  match p.ending with
  | .condition => !mayContinue e tb p.last || leavesAt e p.last.dc.pc
  | _ => true

/-- Starting with the flags `g`, `singlestep` stays off after every instruction but the last. After
the last it is on, unless the block ends there anyway. -/
def Stops (ends : Bool) : StepFlags → List Round → Prop
  | _, [] => True
  | g, r :: rs =>
    if rs = [] then (updateWindows g r.endPc).singlestep = true ∨ ends = true
    else (updateWindows g r.endPc).singlestep = false ∧ Stops ends (updateWindows g r.endPc) rs

@[simp] theorem stops_nil (ends : Bool) (g : StepFlags) : Stops ends g [] := trivial

theorem stops_singleton {ends : Bool} {g : StepFlags} {r : Round} :
    Stops ends g [r] ↔ (updateWindows g r.endPc).singlestep = true ∨ ends = true := by
  rw [Stops, if_pos rfl]

/-- One more instruction in front. -/
theorem stops_cons {ends : Bool} {g : StepFlags} {r : Round} {rs : List Round} (hrs : rs ≠ []) :
    Stops ends g (r :: rs) ↔
      (updateWindows g r.endPc).singlestep = false ∧ Stops ends (updateWindows g r.endPc) rs := by
  rw [Stops, if_neg hrs]

/-- A pass that translates nothing was left at its first address. -/
theorem insnLoop_rounds_eq_nil (tb : TbHeader) (b : Bool) {fuel : ℕ} {s : LoopState}
    (hfuel : 0 < fuel) :
    (insnLoop e tb b fuel s).completed = true ∧ (insnLoop e tb b fuel s).rounds = [] ↔
      leavesAt e s.dc.pc = true := by
  obtain ⟨n, rfl⟩ := Nat.exists_eq_add_one.mpr hfuel
  rw [insnLoop, leavesAt]
  split
  · rename_i hexit
    simp [hexit, Pass.completed]
  split
  · rename_i hexit hbp
    simp only [Pass.completed, hbp, Bool.or_true]
    simp
  · rename_i hexit hbp
    cases disasInsn e s.dc with
    | fault names => simp_all [Pass.completed]
    | insn dc names ops =>
      dsimp only
      split <;> simp_all

theorem endsAnyway_of_rounds_eq_nil {b : Bool} {fuel : ℕ} {s : LoopState} (hfuel : 0 < fuel)
    (hc : (insnLoop e tb b fuel s).completed = true) (h : (insnLoop e tb b fuel s).rounds = []) :
    endsAnyway e tb (insnLoop e tb b fuel s) = true := by
  have hleave := (insnLoop_rounds_eq_nil tb b hfuel).mp ⟨hc, h⟩
  obtain ⟨n, rfl⟩ := Nat.exists_eq_add_one.mpr hfuel
  rw [insnLoop]
  rcases Bool.or_eq_true_iff.mp hleave with hexit | hbp
  · rw [if_pos hexit]
    rfl
  · split
    · rfl
    · rfl

/-- The pass that results when the first instruction is `r` and leaves the loop in `s`: on with `p`,
or the end. -/
def afterRound (r : Round) (s : LoopState) (p : Pass) (goOn : Bool) : Pass :=
  if goOn then { p with rounds := r :: p.rounds } else ⟨[r], s, .condition⟩

/-- One round of the loop that translates an instruction. -/
theorem insnLoop_succ (tb : TbHeader) (b : Bool) (fuel : ℕ) {s : LoopState} {dc : DisasContext}
    {names : List String} {ops : ℕ} (hleave : leavesAt e s.dc.pc = false)
    (hd : disasInsn e s.dc = .insn dc names ops) :
    insnLoop e tb b (fuel + 1) s =
      let s' := afterInsn e tb b s dc ops
      afterRound ⟨s.dc.pc, s.ops, names, dc.pc, s'.flags.singlestep⟩ s' (insnLoop e tb b fuel s')
        (mayContinue e tb s' && !s'.flags.singlestep) := by
  obtain ⟨hexit, hbp⟩ := Bool.or_eq_false_iff.mp hleave
  rw [insnLoop, hexit, hbp, hd]
  rfl

theorem lt_maxInsns_of_mayContinue {s : LoopState} (h : mayContinue e tb s = true) :
    s.numInsns < tb.maxInsns := by
  simp only [mayContinue, Bool.and_eq_true, decide_eq_true_eq] at h
  exact h.2

section Round

variable {r r' : Round} {s : LoopState} {q : Pass} {ends stop : Bool} {g : StepFlags}

/-- The first pass has no instruction after `r`: the second one has none if it is stopped, or if
it ends there anyway. -/
theorem same_rounds_last (hr : r'.startPc = r.startPc)
    (hstop : (updateWindows g r.endPc).singlestep = stop)
    (hq : q.completed = true ∧ q.rounds = [] ↔ ends = true) :
    (afterRound r' s q (!stop)).completed = true ∧
        (afterRound r' s q (!stop)).rounds.map Round.startPc = [r.startPc] ↔
      Stops ends g [r] := by
  rw [stops_singleton, hstop]
  cases stop with
  | false =>
    show q.completed = true ∧ r'.startPc :: q.rounds.map Round.startPc = [r.startPc] ↔ _
    rw [hr, List.cons.injEq, map_eq_nil_iff, ← hq]
    tauto
  | true => exact iff_of_true ⟨rfl, congrArg (fun pc => [pc]) hr⟩ (.inl rfl)

/-- The first pass goes on with `rs`: the second one must not be stopped, and must go on in the
same way. -/
theorem same_rounds_more {rs : List Round} (hr : r'.startPc = r.startPc) (hrs : rs ≠ [])
    (hstop : (updateWindows g r.endPc).singlestep = stop)
    (hq : q.completed = true ∧ q.rounds.map Round.startPc = rs.map Round.startPc ↔
      Stops ends (updateWindows g r.endPc) rs) :
    (afterRound r' s q (!stop)).completed = true ∧
        (afterRound r' s q (!stop)).rounds.map Round.startPc =
          r.startPc :: rs.map Round.startPc ↔
      Stops ends g (r :: rs) := by
  rw [stops_cons hrs, ← hq, hstop]
  cases stop with
  | false =>
    show q.completed = true ∧ r'.startPc :: q.rounds.map Round.startPc = _ :: _ ↔ _
    rw [hr, List.cons.injEq]
    tauto
  | true =>
    refine iff_of_false ?_ (by simp)
    rintro ⟨-, hrounds⟩
    exact hrs (map_eq_nil_iff.mp (congrArg List.tail hrounds).symm)

/-- Both passes translate one instruction and come to the same address. The first one then goes on
with `p`, the second one with `q`, if they go on. -/
theorem same_rounds_insn {s t : LoopState} {p : Pass} (hr : r'.startPc = r.startPc)
    (hst : SameCode s t) (hstop : (updateWindows g r.endPc).singlestep = t.flags.singlestep)
    (hleave : mayContinue e tb s = true →
      (q.completed = true ∧ q.rounds = [] ↔ leavesAt e t.dc.pc = true))
    (hends : mayContinue e tb s = true → p.completed = true → p.rounds = [] →
      endsAnyway e tb p = true)
    (hc : (afterRound r s p (mayContinue e tb s && !s.flags.singlestep)).completed = true)
    (hq : p.completed = true →
      (q.completed = true ∧ q.rounds.map Round.startPc = p.rounds.map Round.startPc ↔
        Stops (endsAnyway e tb p) (updateWindows g r.endPc) p.rounds)) :
    (afterRound r' t q (mayContinue e tb t && !t.flags.singlestep)).completed = true ∧
        (afterRound r' t q (mayContinue e tb t && !t.flags.singlestep)).rounds.map Round.startPc =
          (afterRound r s p (mayContinue e tb s && !s.flags.singlestep)).rounds.map Round.startPc ↔
      Stops (endsAnyway e tb (afterRound r s p (mayContinue e tb s && !s.flags.singlestep))) g
        (afterRound r s p (mayContinue e tb s && !s.flags.singlestep)).rounds := by
  rw [← hst.mayContinue]
  cases hm : mayContinue e tb s with
  | false =>
    -- the block ends here, in both passes
    refine iff_of_true ⟨rfl, congrArg (fun pc => [pc]) hr⟩ (stops_singleton.mpr (.inr ?_))
    simp [endsAnyway, afterRound, hm]
  | true =>
    rw [hm] at hc
    rw [Bool.true_and]
    cases hss : s.flags.singlestep with
    | true =>
      -- the first pass was stopped by the flag
      refine same_rounds_last hr hstop ((hleave hm).trans ?_)
      rw [← hst.dc]
      simp [endsAnyway, afterRound, hm]
    | false =>
      rw [hss] at hc
      have hp : p.completed = true := hc
      by_cases hnil : p.rounds = []
      · -- the first pass ended right after this instruction
        have hrest := hq hp
        show _ ∧ _ = _ :: map _ p.rounds ↔ Stops (endsAnyway e tb p) _ (_ :: p.rounds)
        rw [hnil] at hrest ⊢
        refine same_rounds_last hr hstop (iff_of_true ?_ (hends hm hp hnil))
        obtain ⟨hcompleted, hrounds⟩ := hrest.mpr (stops_nil _ _)
        exact ⟨hcompleted, map_eq_nil_iff.mp hrounds⟩
      · exact same_rounds_more hr hnil hstop (hq hp)

end Round

/-- **When a second pass visits the same instructions.** The first pass starts in `s`, the second
in `t`. -/
theorem same_rounds_iff (b b' : Bool) (fuel : ℕ) {s t : LoopState} (hst : SameCode s t)
    (hfuel : fuel + s.numInsns = tb.maxInsns) (hc : (insnLoop e tb b fuel s).completed = true) :
    (insnLoop e tb b' fuel t).completed = true ∧
        (insnLoop e tb b' fuel t).rounds.map Round.startPc =
          (insnLoop e tb b fuel s).rounds.map Round.startPc ↔
      Stops (endsAnyway e tb (insnLoop e tb b fuel s)) t.flags (insnLoop e tb b fuel s).rounds := by
  induction fuel generalizing s t with
  | zero => exact iff_of_true ⟨rfl, rfl⟩ (stops_nil _ _)
  | succ fuel ih =>
    cases hleave : leavesAt e s.dc.pc with
    | true =>
      -- neither pass translates anything
      have hs := (insnLoop_rounds_eq_nil tb b fuel.succ_pos).mpr hleave
      rw [hst.dc] at hleave
      have ht := (insnLoop_rounds_eq_nil tb b' fuel.succ_pos).mpr hleave
      rw [hs.2, ht.2]
      exact iff_of_true ⟨ht.1, rfl⟩ (stops_nil _ _)
    | false =>
      cases hd : disasInsn e s.dc with
      | fault names =>
        obtain ⟨hexit, hbp⟩ := Bool.or_eq_false_iff.mp hleave
        rw [insnLoop, hexit, hbp, hd] at hc
        cases hc
      | insn dc names ops =>
        have hs := insnLoop_succ tb b fuel hleave hd
        rw [hst.dc] at hleave hd
        have ht := insnLoop_succ tb b' fuel hleave hd
        have hst' : SameCode (afterInsn e tb b s dc ops) (afterInsn e tb b' t dc ops) :=
          hst.afterInsn b b' dc ops
        have hfuel' : fuel + (afterInsn e tb b s dc ops).numInsns = tb.maxInsns := by
          rw [afterInsn_numInsns]
          omega
        have hpos : mayContinue e tb (afterInsn e tb b s dc ops) = true → 0 < fuel := by
          intro hm
          have hlt := lt_maxInsns_of_mayContinue hm
          omega
        have hflags : (afterInsn e tb b' t dc ops).flags = updateWindows t.flags dc.pc := rfl
        generalize afterInsn e tb b s dc ops = s' at hs hst' hfuel' hpos
        generalize afterInsn e tb b' t dc ops = t' at ht hst' hflags
        rw [hs] at hc ⊢
        rw [ht]
        refine same_rounds_insn (congrArg DisasContext.pc hst.dc.symm) hst' ?_ ?_ ?_ hc ?_
        · rw [hflags]
        · exact fun hm => insnLoop_rounds_eq_nil tb b' (hpos hm)
        · exact fun hm => endsAnyway_of_rounds_eq_nil (hpos hm)
        · intro hp
          rw [← hflags]
          exact ih hst' hfuel' hp

/-! ### Mapping operations back to instructions -/

/-- `while (gen_opc_instr_start[j] == 0) j--`. There is no result when the search runs out of the
array. -/
def OpcMap.findStart (m : OpcMap) : ℕ → Option ℕ
  | 0 => if m.instrStart 0 then some 0 else none
  | j + 1 => if m.instrStart (j + 1) then some (j + 1) else m.findStart j

/-- The program counter that `cpu_restore_state` restores for the operation `j`. -/
def restoredPc (m : OpcMap) (j : ℕ) : Option UInt32 := (m.findStart j).map m.pc

theorem restoredPc_of_start {m : OpcMap} {j : ℕ} (h : m.instrStart j = true) :
    restoredPc m j = some (m.pc j) := by
  cases j <;> simp [restoredPc, OpcMap.findStart, h]

/-- The search passes over entries that are zero. -/
theorem restoredPc_of_not_start {m : OpcMap} {i j : ℕ} (hij : i ≤ j)
    (h : ∀ k, i < k → k ≤ j → m.instrStart k = false) : restoredPc m j = restoredPc m i := by
  induction j with
  | zero =>
    obtain rfl : i = 0 := Nat.le_zero.mp hij
    rfl
  | succ j ih =>
    rcases Nat.lt_or_ge j i with hlt | hle
    · obtain rfl : i = j + 1 := by omega
      rfl
    · have hj : restoredPc m (j + 1) = restoredPc m j := by
        simp [restoredPc, OpcMap.findStart, h (j + 1) (by omega) (Nat.le_refl _)]
      rw [hj]
      exact ih hle fun k hik hkj => h k hik (by omega)

/-- The search looks at nothing beyond `j`. -/
theorem restoredPc_congr {m m' : OpcMap} {j : ℕ}
    (hstart : ∀ k, k ≤ j → m.instrStart k = m'.instrStart k) (hpc : ∀ k, k ≤ j → m.pc k = m'.pc k) :
    restoredPc m j = restoredPc m' j := by
  induction j with
  | zero => simp [restoredPc, OpcMap.findStart, hstart 0 (Nat.le_refl _), hpc 0 (Nat.le_refl _)]
  | succ j ih =>
    have hih := ih (fun k hk => hstart k (by omega)) fun k hk => hpc k (by omega)
    cases hs : m.instrStart (j + 1) with
    | true =>
      have hs' := (hstart (j + 1) (Nat.le_refl _)).symm.trans hs
      rw [restoredPc_of_start hs, restoredPc_of_start hs', hpc (j + 1) (Nat.le_refl _)]
    | false =>
      have hs' := (hstart (j + 1) (Nat.le_refl _)).symm.trans hs
      simpa [restoredPc, OpcMap.findStart, hs, hs'] using hih

/-- The operations from `lo` up to, but not including, `hi` are mapped back to one of `pcs`. -/
def MapsBack (m : OpcMap) (pcs : List UInt32) (lo hi : ℕ) : Prop :=
  ∀ j, lo ≤ j → j < hi → ∃ pc ∈ pcs, restoredPc m j = some pc

/-- Clearing entries extends the last instruction recorded. -/
theorem MapsBack.clearStarts {m : OpcMap} {pcs : List UInt32} {lo hi : ℕ} (h : MapsBack m pcs lo hi)
    (hlo : lo < hi) (j : ℕ) : MapsBack (m.clearStarts hi j) pcs lo (max hi j) := by
  -- an entry below `hi` is found as before
  have hbelow : ∀ k, k < hi → restoredPc (m.clearStarts hi j) k = restoredPc m k := by
    intro k hk
    refine restoredPc_congr (fun i hi' => ?_) fun i _ => rfl
    show (if hi ≤ i ∧ i < j then false else m.instrStart i) = m.instrStart i
    rw [if_neg (by omega)]
  intro k hlok hk
  rcases Nat.lt_or_ge k hi with hlt | hge
  · rw [hbelow k hlt]
    exact h k hlok hlt
  · obtain ⟨pc, hpc, hrest⟩ := h (hi - 1) (by omega) (by omega)
    refine ⟨pc, hpc, ?_⟩
    rw [restoredPc_of_not_start (i := hi - 1) (by omega), hbelow (hi - 1) (by omega), hrest]
    intro i hi' hik
    show (if hi ≤ i ∧ i < j then false else m.instrStart i) = false
    rw [if_pos (by omega)]

/-- Recording an instruction right behind what is mapped back already. -/
theorem MapsBack.setStart {m : OpcMap} {pcs : List UInt32} {lo hi : ℕ} (h : MapsBack m pcs lo hi)
    (dc : DisasContext) (numInsns : ℕ) :
    MapsBack (m.setStart hi dc numInsns) (pcs ++ [dc.pc]) lo (hi + 1) := by
  intro j hlo hj
  rcases Nat.lt_or_ge j hi with hlt | hge
  · obtain ⟨pc, hpc, hrest⟩ := h j hlo hlt
    refine ⟨pc, mem_append_left _ hpc, ?_⟩
    rw [← hrest]
    refine restoredPc_congr (fun k hk => ?_) fun k hk => ?_
    · exact update_of_ne (by omega) _ _
    · exact update_of_ne (by omega) _ _
  · obtain rfl : j = hi := by omega
    refine ⟨dc.pc, mem_append_right _ (mem_singleton_self _), ?_⟩
    rw [restoredPc_of_start (update_self ..)]
    exact congrArg some (update_self ..)

/-- The arrays of a pass with `search_pc = 1`, after the instructions that start at `pcs`: every
operation since the first instruction is mapped back to one of them. -/
def Recorded (lo : ℕ) (pcs : List UInt32) (s : LoopState) : Prop :=
  s.lj ≤ s.ops + 1 ∧
    (pcs = [] ∧ s.lj = 0 ∧ lo = s.ops ∨ lo < s.lj ∧ MapsBack s.opcMap pcs lo s.lj)

theorem Recorded.afterInsn {lo : ℕ} {pcs : List UInt32} {s : LoopState} (h : Recorded lo pcs s)
    (dc : DisasContext) (ops : ℕ) :
    Recorded lo (pcs ++ [s.dc.pc]) (Translate.afterInsn e tb true s dc ops) := by
  obtain ⟨hlj, hmap⟩ := h
  have hrecord : (s.opcMap.record s.lj s.ops s.dc s.numInsns).2 = s.ops + 1 ∧
      MapsBack (s.opcMap.record s.lj s.ops s.dc s.numInsns).1 (pcs ++ [s.dc.pc]) lo
      (s.ops + 1) := by
    rw [OpcMap.record]
    rcases hmap with ⟨rfl, hlj₀, rfl⟩ | ⟨hlo, hmap⟩
    · -- the first instruction
      rw [if_pos (by omega)]
      refine ⟨rfl, MapsBack.setStart ?_ _ _⟩
      intro j hlo hj
      omega
    split
    · rename_i hle
      have := hmap.clearStarts hlo s.ops
      rw [Nat.max_eq_right hle] at this
      exact ⟨rfl, this.setStart _ _⟩
    · -- the instruction before emitted nothing and is overwritten
      rename_i hlt
      have hlj' : s.lj = s.ops + 1 := by omega
      refine ⟨hlj', ?_⟩
      rw [hlj', Nat.add_sub_cancel]
      refine MapsBack.setStart (fun j hlo hj => ?_) _ _
      exact hmap j hlo (by omega)
  have hlj' : (Translate.afterInsn e tb true s dc ops).lj = s.ops + 1 := hrecord.1
  have hops : s.ops ≤ (Translate.afterInsn e tb true s dc ops).ops := by
    simp only [Translate.afterInsn]
    omega
  refine ⟨by omega, .inr ⟨?_, ?_⟩⟩
  · rw [hlj']
    rcases hmap with ⟨-, -, rfl⟩ | ⟨hlo, -⟩
    · omega
    · omega
  · rw [hlj']
    exact hrecord.2

/-- **Every operation is mapped back to an instruction of the pass.** -/
theorem recorded_insnLoop {lo : ℕ} (fuel : ℕ) (s : LoopState) {pcs : List UInt32}
    (h : Recorded lo pcs s) :
    Recorded lo (pcs ++ (insnLoop e tb true fuel s).rounds.map Round.startPc)
      (insnLoop e tb true fuel s).last := by
  refine insnLoop_induction (P := fun s p => ∀ pcs, Recorded lo pcs s →
    Recorded lo (pcs ++ p.rounds.map Round.startPc) p.last) ?_ ?_ ?_ fuel s pcs h
  · intro s s' ending _ _ hops hmap hlj pcs h
    rw [map_nil, append_nil]
    unfold Recorded at h ⊢
    rw [hops, hmap, hlj]
    exact h
  · intro s dc names ops _ pcs h
    exact h.afterInsn dc ops
  · intro s dc names ops p _ hp pcs h
    have := hp _ (h.afterInsn dc ops)
    rwa [append_assoc] at this

/-! ### Live blocks -/

/-- A live block is as its first translation left it. -/
structure Traced (c : CodeCache) (i : ℕ) (o : Origin) : Prop where
  completed : o.pass.completed = true
  pass : ∃ g m, o.pass = genIntermediateCodeInternal o.env (c.tbs i).header false g m
  icount : (c.tbs i).icount = o.pass.last.numInsns

/-- All live blocks are. -/
def AllTraced (c : CodeCache) : Prop := ∀ i o, c.origin i = some o → Traced c i o

variable {z : CacheSize} {insnMap : Option InsnMap} {c c' : CodeCache}

theorem Traced.congr {i : ℕ} {o : Origin} (h : Traced c i o)
    (hheader : (c'.tbs i).header = (c.tbs i).header)
    (hicount : (c'.tbs i).icount = (c.tbs i).icount) : Traced c' i o :=
  ⟨h.completed, by rw [hheader]; exact h.pass, by rw [hicount]; exact h.icount⟩

theorem AllTraced.step {op : CacheOp} (hc : LiveAllocated c) (ht : AllTraced c)
    (h : cacheStep z insnMap c op = some c') : AllTraced c' := by
  intro i o ho
  rcases (liveFrom_of_step hc h ho).1 with ⟨_, hold, hsame⟩ | ⟨e, epilogueOps, hold, hres⟩ |
    ⟨e, tb, codeGenSize, rfl, hcompleted, rfl, hgen⟩
  · exact (ht i o hold).congr (by rw [hsame]) (by rw [hsame])
  · exact (ht i o hold).congr hres.header hres.icount
  · refine ⟨hcompleted, ⟨c.flags, c.opcMap, ?_⟩, hgen.icount hcompleted⟩
    rw [hgen.header]
    rfl

/-- **The second pass reproduces the block.** It gets to its end, visits the same instructions, as
many as were counted when the block was generated, and maps every operation from the first
instruction on back to an instruction of the block. -/
structure Reproduces (c : CodeCache) (i : ℕ) (o : Origin) (epilogueOps : ℕ) : Prop where
  completed : (retranslate c i o.env).completed = true
  startPcs : (retranslate c i o.env).rounds.map Round.startPc = o.pass.rounds.map Round.startPc
  numInsns : (retranslate c i o.env).last.numInsns = (c.tbs i).icount
  mapsBack : ∀ r ∈ o.pass.rounds.head?,
    MapsBack ((retranslate c i o.env).finishOpcMap epilogueOps) (o.pass.rounds.map Round.startPc)
      r.startOp ((retranslate c i o.env).last.ops + epilogueOps + 1)

theorem startOp_insnLoop {b : Bool} (fuel : ℕ) (s : LoopState) :
    ∀ r ∈ (insnLoop e tb b fuel s).rounds.head?, r.startOp = s.ops := by
  refine insnLoop_induction (P := fun s p => ∀ r ∈ p.rounds.head?, r.startOp = s.ops)
    ?_ ?_ ?_ fuel s
  · intro s s' ending _ _ _ _ _ r hr
    cases hr
  · intro s dc names ops _ r hr
    cases hr
    rfl
  · intro s dc names ops p _ _ r hr
    cases hr
    rfl

/-- After a pass with `search_pc = 1` every operation from the first instruction on is mapped back
to an instruction of that pass. -/
theorem mapsBack_retranslate (c : CodeCache) (i : ℕ) (e : TransEnv) (epilogueOps : ℕ)
    (hne : (retranslate c i e).rounds ≠ []) :
    MapsBack ((retranslate c i e).finishOpcMap epilogueOps)
      ((retranslate c i e).rounds.map Round.startPc)
      (initLoopState e (c.tbs i).header c.flags c.opcMap).ops
      ((retranslate c i e).last.ops + epilogueOps + 1) := by
  have hinit : Recorded (initLoopState e (c.tbs i).header c.flags c.opcMap).ops []
      (initLoopState e (c.tbs i).header c.flags c.opcMap) :=
    ⟨Nat.zero_le _, .inl ⟨rfl, rfl, rfl⟩⟩
  have hrecorded : Recorded (initLoopState e (c.tbs i).header c.flags c.opcMap).ops
      ((retranslate c i e).rounds.map Round.startPc) (retranslate c i e).last :=
    recorded_insnLoop (c.tbs i).header.maxInsns _ hinit
  obtain ⟨hlj, hmap⟩ := hrecorded
  rcases hmap with ⟨hnil, -⟩ | ⟨hlo, hmap⟩
  · exact absurd (map_eq_nil_iff.mp hnil) hne
  · have := hmap.clearStarts hlo ((retranslate c i e).last.ops + epilogueOps + 1)
    rwa [Nat.max_eq_right (by omega)] at this

theorem reproduces_iff_of_traced {i : ℕ} {o : Origin} (ht : Traced c i o) (epilogueOps : ℕ) :
    Reproduces c i o epilogueOps ↔
      Stops (endsAnyway o.env (c.tbs i).header o.pass) c.flags o.pass.rounds := by
  obtain ⟨g, m, hpass⟩ := ht.pass
  have hc := ht.completed
  have hsame := same_rounds_iff false true (c.tbs i).header.maxInsns
    (s := initLoopState o.env (c.tbs i).header g m)
    (t := initLoopState o.env (c.tbs i).header c.flags c.opcMap) ⟨rfl, rfl, rfl⟩ rfl
    (by rw [hpass] at hc; exact hc)
  have hfirst : insnLoop o.env (c.tbs i).header false (c.tbs i).header.maxInsns
      (initLoopState o.env (c.tbs i).header g m) = o.pass := hpass.symm
  have hsecond : insnLoop o.env (c.tbs i).header true (c.tbs i).header.maxInsns
      (initLoopState o.env (c.tbs i).header c.flags c.opcMap) = retranslate c i o.env := rfl
  rw [hfirst, hsecond] at hsame
  constructor
  · intro h
    exact hsame.mp ⟨h.completed, h.startPcs⟩
  · intro h
    obtain ⟨hcompleted, hstart⟩ := hsame.mpr h
    refine ⟨hcompleted, hstart, ?_, ?_⟩
    · -- as many instructions, because the lists are equally long
      have hlength : (retranslate c i o.env).rounds.length = o.pass.rounds.length := by
        simpa using congrArg List.length hstart
      rw [ht.icount, ← hfirst]
      have h₁ := numInsns_insnLoop o.env (c.tbs i).header true
        (c.tbs i).header.maxInsns (initLoopState o.env (c.tbs i).header c.flags c.opcMap)
      have h₂ := numInsns_insnLoop o.env (c.tbs i).header false
        (c.tbs i).header.maxInsns (initLoopState o.env (c.tbs i).header g m)
      rw [← hfirst] at hlength
      exact h₁.trans ((congrArg (0 + ·) hlength).trans h₂.symm)
    · intro r hr
      have hstartOp : r.startOp = (initLoopState o.env (c.tbs i).header c.flags c.opcMap).ops := by
        rw [← hfirst] at hr
        have := startOp_insnLoop _ _ r hr
        exact this
      have hne : (retranslate c i o.env).rounds ≠ [] := by
        intro hnil
        have hpcs : o.pass.rounds.map Round.startPc = [] :=
          hstart.symm.trans (congrArg (map Round.startPc) hnil)
        rw [map_eq_nil_iff.mp hpcs] at hr
        cases hr
      rw [hstartOp, ← hstart]
      exact mapsBack_retranslate c i o.env epilogueOps hne

/-- A CPU on which every instruction falls through to the next. -/
def fallThroughEnv : TransEnv :=
  { branchEnv with
    disasArmInsn := fun dc => .insn { dc with pc := dc.pc + 4 } [] 1 }

/-- A zeroed array, and `singlestep` on without any error window. -/
def steppingCache : CodeCache :=
  { zeroCache with flags := { zeroCache.flags with singlestep := true } }

/-- The block that starts two instructions before the end of the first page is generated. -/
def genFallThrough : CacheOp := .tbGenCode fallThroughEnv ⟨1016, 0, 0⟩ 32 false

end VariabilityTestbed.Translate
