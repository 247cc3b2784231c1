import VariabilityTestbed.Exec.TbIndex

/-!
# Invalidating a range

`tb_invalidate_phys_page_range` walks the list of a page and invalidates the blocks that overlap a
range. Invalidating a block changes the list under the walk, which has read the next pointer before.
Since the walk never looks back, all that matters is which cells in front of it change, and the only
cell that leads to the block from there is the one between its two own pointers.

So the walk does the same as invalidating the blocks of a list that is known in advance, one after
the other. This list can name a block twice: if both pages of a block are the same physical page and
the range overlaps both of its parts. The second time, the block is no longer in the table.
-/

namespace VariabilityTestbed.Exec

open Chains Memory Translate Finset List Option

attribute [local instance] neZero_two

namespace TbTable

variable {s s' : TbTable} {hashLists : ℕ → List ℕ} {pageLists : ℕ → List PageNode} {t : ℕ}
variable {start stop : ℕ}

/-! ### The walk -/

/-- Invalidate the blocks of a list. The first of them lets a pending interrupt be handled. -/
def invalidateAll (s : TbTable) (currentTb : Option ℕ) : List ℕ → Option TbTable
  | [] => some s
  | t :: ts => do
    let s ← s.tbPhysInvalidate t
    let s ← s.cpuInterrupt currentTb
    s.invalidateAll none ts

/-- The blocks that the test finds along a list of pointers. -/
def hits (s : TbTable) (start stop : ℕ) (l : List PageNode) : List ℕ :=
  (l.filter (s.overlaps start stop)).map Prod.fst

/-- Each pointer leads to the next one. -/
def Follows (cell : PageCell → Option PageNode) : List PageNode → Prop
  | [] => True
  | x :: l => cell (.next x) = l.head? ∧ Follows cell l

/-- No pointer in front of the walk leads to a block that the walk has been at. -/
def Ahead : List PageNode → Prop
  | [] => True
  | x :: l => (∀ i, (x.1, i) ∉ l.tail) ∧ Ahead l

variable {l : List PageNode}

theorem follows_of_chain {cell : PageCell → Option PageNode} {k : PageCell}
    (h : Chain cell .next k l) : cell k = l.head? ∧ Follows cell l := by
  induction l generalizing k with
  | nil => exact ⟨chain_nil.mp h, trivial⟩
  | cons x l ih =>
    obtain ⟨hk, hl⟩ := Chains.chain_cons.mp h
    exact ⟨hk, (ih hl).1, (ih hl).2⟩

theorem Follows.congr {cell cell' : PageCell → Option PageNode}
    (h : Follows cell l) (hsame : ∀ x y, cell (.next x) = some y → y ∈ l.tail →
      cell' (.next x) = cell (.next x)) (hend : ∀ x, cell (.next x) = none →
      cell' (.next x) = none) : Follows cell' l := by
  induction l with
  | nil => trivial
  | cons x l ih =>
    refine ⟨?_, ih h.2 (fun y z hyz hz => hsame y z hyz (mem_of_mem_tail hz))⟩
    cases l with
    | nil => exact hend x h.1
    | cons y l => exact (hsame x y h.1 (.head _)).trans h.1

theorem suffix_unique {l₁ l₂ m₁ m₂ : List PageNode} {x : PageNode} (hnodup : l.Nodup)
    (hl : l = l₁ ++ x :: l₂) (hm : l = m₁ ++ x :: m₂) : l₂ = m₂ := by
  have hnot : ∀ {k₁ k₂ : List PageNode}, l = k₁ ++ x :: k₂ → x ∉ k₁ ∧ x ∉ k₂ := by
    intro k₁ k₂ hk
    have := nodup_middle.mp (hk ▸ hnodup)
    simpa using (nodup_cons.mp this).1
  exact ((append_cons_inj_of_notMem (hnot hl).1 (hnot hl).2).mp (hl.symm.trans hm)).2.2

/-- The pointers of an adjacent pair are passed one directly after the other. -/
theorem ahead_of_adjacent {l₁ l₂ : List PageNode} (hnodup : l.Nodup) (hadj : Adjacent l)
    (hl : l = l₁ ++ l₂) : Ahead l₂ := by
  induction l₂ generalizing l₁ with
  | nil => trivial
  | cons x l₂ ih =>
    have hl' : l = (l₁ ++ [x]) ++ l₂ := by rw [hl, append_assoc]; rfl
    refine ⟨fun i hi => ?_, ih hl'⟩
    obtain ⟨u, n⟩ := x
    have hmem : (u, i) ∈ l₂ := mem_of_mem_tail hi
    have hnodup₂ : ((u, n) :: l₂).Nodup := (nodup_append.mp (hl ▸ hnodup)).2.1
    have hne : i ≠ n := by
      rintro rfl
      exact (nodup_cons.mp hnodup₂).1 hmem
    have hmem₁ : (u, n) ∈ l := by simp [hl]
    have hmem₂ : (u, i) ∈ l := by simp [hl, hmem]
    -- the pointers are next to each other, so what the pair is followed by is known
    rcases (by omega : i = 0 ∧ n = 1 ∨ i = 1 ∧ n = 0) with ⟨rfl, rfl⟩ | ⟨rfl, rfl⟩
    · obtain ⟨m₁, m₂, hm⟩ := hadj u hmem₂ hmem₁
      obtain rfl : l₂ = (u, 0) :: m₂ := suffix_unique hnodup hl hm
      have hnot := (nodup_cons.mp (nodup_cons.mp hnodup₂).2).1
      exact hnot hi
    · obtain ⟨m₁, m₂, hm⟩ := hadj u hmem₁ hmem₂
      have hm' : l = (m₁ ++ [(u, 1)]) ++ (u, 0) :: m₂ := by rw [hm, append_assoc]; rfl
      obtain rfl : l₂ = m₂ := suffix_unique hnodup hl hm'
      have hnot := (nodup_cons.mp (nodup_append.mp (hm ▸ hnodup)).2.1).1
      exact hnot (.tail _ hmem)

/-- Chaining and unchaining touch nothing but the jumps. -/
theorem Indexed.jmpStep (hs : Indexed s hashLists pageLists) {op : JmpOp} {jumps : JmpState}
    (h : Exec.jmpStep s.jumps op = some jumps) (hlive : jumps.live = s.jumps.live) :
    Indexed { s with jumps := jumps } hashLists pageLists := by
  obtain ⟨jumps', hrun, hc⟩ := hs.jumps.step (enabled_of_jmpStep h)
  obtain rfl : jumps' = jumps := some.inj (hrun.symm.trans h)
  exact hs.congr rfl rfl (fun _ _ _ => id) (fun _ _ => rfl) hs.allocated hlive hc

variable {currentTb : Option ℕ}

/-- `cpu_interrupt` leaves the table as it is, apart from the jumps. -/
theorem Indexed.cpuInterrupt (hs : Indexed s hashLists pageLists)
    (h : s.cpuInterrupt currentTb = some s') :
    s'.Indexed hashLists pageLists ∧ s'.tbs = s.tbs ∧ s'.pageCell = s.pageCell ∧
      s'.live = s.live := by
  cases currentTb with
  | none =>
    cases h
    exact ⟨hs, rfl, rfl, rfl⟩
  | some c =>
    obtain ⟨jumps, hjumps, rfl⟩ := map_eq_some_iff.mp h
    have hlive := hs.jumps.live_of_tbResetJumpRecursive hjumps
    exact ⟨hs.jmpStep hjumps hlive, rfl, rfl, hlive⟩

theorem overlaps_congr (htbs : s'.tbs = s.tbs) :
    s'.overlaps start stop = s.overlaps start stop := by
  obtain ⟨tbs⟩ := s
  obtain ⟨tbs'⟩ := s'
  obtain rfl : tbs' = tbs := htbs
  rfl

/-- **The walk invalidates the blocks that the test finds along the list it starts with.** -/
theorem Indexed.invalidateLoop_eq (hs : Indexed s hashLists pageLists) {fuel : ℕ}
    (hfollows : Follows s.pageCell l) (hahead : Ahead l) (hfuel : l.length < fuel) :
    invalidateLoop start stop fuel s currentTb l.head? =
      s.invalidateAll currentTb (s.hits start stop l) := by
  induction l generalizing s hashLists pageLists currentTb fuel with
  | nil =>
    obtain ⟨n, rfl⟩ := Nat.exists_eq_add_one.mpr hfuel
    rfl
  | cons x l ih =>
    obtain ⟨n, rfl⟩ := Nat.exists_eq_add_one.mpr (Nat.zero_lt_of_lt hfuel)
    have hfuel : l.length < n := Nat.lt_of_succ_lt_succ hfuel
    have hnext : s.pageCell (.next x) = l.head? := hfollows.1
    rw [head?_cons, invalidateLoop, hnext]
    cases hx : s.overlaps start stop x with
    | false =>
      rw [if_neg Bool.false_ne_true, ih hs hfollows.2 hahead.2 hfuel, hits, hits,
        List.filter_cons_of_neg (by rw [hx]; exact Bool.false_ne_true)]
    | true =>
      rw [if_pos rfl, hits, List.filter_cons_of_pos hx, List.map_cons, invalidateAll]
      by_cases ht : x.1 ∈ s.live
      · obtain ⟨s₁, hrun, hinv, hs₁⟩ := hs.tbPhysInvalidate_eq ht
        simp only [hrun, bind_eq_bind, bind_some]
        cases hint : s₁.cpuInterrupt currentTb with
        | none => rfl
        | some s₂ =>
          obtain ⟨hs₂, htbs, hcell, -⟩ := hs₁.cpuInterrupt hint
          simp only [bind_some]
          -- the cells in front of the walk do not lead to the block, so they are as before
          have hfollows' : Follows s₂.pageCell l := by
            rw [hcell]
            refine hfollows.2.congr (fun y z hyz hz => hinv.frame _ fun i heq => ?_) fun y hy => ?_
            · obtain rfl := some.inj (hyz.symm.trans heq)
              exact hahead.1 i hz
            · rw [hinv.frame _ fun i heq => absurd (hy.symm.trans heq) nofun, hy]
          rw [ih hs₂ hfollows' hahead.2 hfuel, hits, overlaps_congr (htbs.trans hinv.tbs)]
      · rw [hs.tbPhysInvalidate_eq_none ht]
        rfl

/-! ### Invalidating the blocks of a list -/

/-- If the blocks of a list have been invalidated, then each of them was live and came once. -/
theorem Indexed.of_invalidateAll (hs : Indexed s hashLists pageLists)
    {ts : List ℕ} (h : s.invalidateAll currentTb ts = some s') :
    ts.Nodup ∧ (∀ t ∈ ts, t ∈ s.live) ∧ s'.tbs = s.tbs ∧ s'.live = s.live \ ts.toFinset ∧
      ∃ hashLists' pageLists', s'.Indexed hashLists' pageLists' := by
  induction ts generalizing s hashLists pageLists currentTb with
  | nil =>
    cases h
    exact ⟨nodup_nil, nofun, rfl, (sdiff_empty).symm, _, _, hs⟩
  | cons t ts ih =>
    rw [invalidateAll] at h
    obtain ⟨s₁, hrun, h₁⟩ := bind_eq_some_iff.mp h
    obtain ⟨s₂, hint, h₂⟩ := bind_eq_some_iff.mp h₁
    obtain ⟨ht, hinv, hs₁⟩ := hs.of_tbPhysInvalidate hrun
    obtain ⟨hs₂, htbs, -, hlive⟩ := hs₁.cpuInterrupt hint
    obtain ⟨hnodup, hmem, htbs', hlive', hs'⟩ := ih hs₂ h₂
    have hlive₂ : s₂.live = s.live.erase t := hlive.trans hinv.live
    rw [hlive₂] at hmem
    refine ⟨nodup_cons.mpr ⟨fun hin => ?_, hnodup⟩, fun u hu => ?_,
      htbs'.trans (htbs.trans hinv.tbs), ?_, hs'⟩
    · exact notMem_erase t _ (hmem t hin)
    · rcases List.mem_cons.mp hu with rfl | hu
      · exact ht
      · exact Finset.mem_of_mem_erase (hmem u hu)
    · ext u
      rw [hlive', hlive₂]
      simp only [mem_sdiff, mem_erase, List.mem_toFinset, List.mem_cons, not_or]
      tauto

/-- The block that a CPU is executing is live, or its jumps are on no list. -/
def Interruptible (s : TbTable) (currentTb : Option ℕ) : Prop :=
  ∀ u, currentTb = some u → (JmpOp.tbResetJumpRecursive u).Enabled s.jumps

theorem Invalidated.interruptible (hinv : Invalidated s t s')
    (h : s.Interruptible currentTb) : s'.Interruptible currentTb := by
  intro u hu
  obtain ⟨hself, hkeep⟩ := tbPhysInvalidate_null hinv.jumps
  rcases h u hu with hlive | hnull
  · by_cases hut : u = t
    · exact .inr (hut ▸ hself)
    · refine .inl ?_
      show u ∈ s'.live
      rw [hinv.live]
      exact mem_erase.mpr ⟨hut, hlive⟩
  · exact .inr fun n => hkeep u n (hnull n)

/-- Live blocks can be invalidated, one after the other. -/
theorem Indexed.exists_invalidateAll (hs : Indexed s hashLists pageLists)
    (hcur : s.Interruptible currentTb) {ts : List ℕ} (hnodup : ts.Nodup)
    (hmem : ∀ t ∈ ts, t ∈ s.live) : ∃ s', s.invalidateAll currentTb ts = some s' := by
  induction ts generalizing s hashLists pageLists currentTb with
  | nil => exact ⟨s, rfl⟩
  | cons t ts ih =>
    obtain ⟨hnot, hnodup⟩ := nodup_cons.mp hnodup
    obtain ⟨s₁, hrun, hinv, hs₁⟩ := hs.tbPhysInvalidate_eq (hmem t (.head _))
    have hint : ∃ s₂, s₁.cpuInterrupt currentTb = some s₂ := by
      cases currentTb with
      | none => exact ⟨s₁, rfl⟩
      | some u =>
        obtain ⟨jumps, hjumps, -⟩ := hs₁.jumps.step (hinv.interruptible hcur u rfl)
        exact ⟨_, congrArg (Option.map _) hjumps⟩
    obtain ⟨s₂, hint⟩ := hint
    obtain ⟨hs₂, -, -, hlive⟩ := hs₁.cpuInterrupt hint
    have hnone : s₂.Interruptible none := nofun
    obtain ⟨s', hs'⟩ := ih hs₂ hnone hnodup fun u hu => by
      rw [hlive, hinv.live]
      refine mem_erase.mpr ⟨?_, hmem u (.tail _ hu)⟩
      rintro rfl
      exact hnot hu
    refine ⟨s', ?_⟩
    simp only [invalidateAll, hrun, hint, hs', bind_eq_bind, bind_some]

/-- **`tb_invalidate_phys_page_range`** invalidates the blocks that the test finds on the page. -/
theorem Indexed.tbInvalidatePhysPageRange_eq (hs : Indexed s hashLists pageLists)
    (currentTb : Option ℕ) (start stop : ℕ) :
    s.tbInvalidatePhysPageRange currentTb start stop =
      s.invalidateAll currentTb (s.hits start stop (pageLists (start / targetPageSize))) := by
  set p := start / targetPageSize with hp
  obtain ⟨hhead, hfollows⟩ := follows_of_chain (hs.page.chain p)
  have hahead : Ahead (pageLists p) :=
    ahead_of_adjacent (hs.page.nodup p) (hs.adjacent p) (nil_append _).symm
  rw [tbInvalidatePhysPageRange, ← hp, hhead]
  exact hs.invalidateLoop_eq hfollows hahead (hs.pageLists_length p)

/-! ### Every state that can be reached -/

/-- There are lists that the table is exact with. -/
def AllIndexed (s : TbTable) : Prop := ∃ hashLists pageLists, s.Indexed hashLists pageLists

variable {z : CacheSize} {map : CodeMap} {pc csBase : UInt32} {flags : UInt64} {cpu : ℕ}

theorem Indexed.tbFindFast {translation : Option (Translation pc)} {r : Option ℕ}
    (hs : Indexed s hashLists pageLists)
    (h : s.tbFindFast z map cpu pc csBase flags translation = some (s', r)) : s'.AllIndexed := by
  rw [TbTable.tbFindFast] at h
  split at h
  · exact (hs.tbFindSlow h).1
  · dsimp only at h
    split at h
    · exact (hs.tbFindSlow h).1
    · obtain ⟨rfl, -⟩ := Prod.mk.injEq .. ▸ some.inj h
      exact ⟨_, _, hs⟩

theorem Indexed.tbFree (hs : Indexed s hashLists pageLists) (ht : t ∉ s.live) :
    (s.tbFree t).Indexed hashLists pageLists := by
  rw [TbTable.tbFree]
  split
  next hlast =>
    refine hs.congr rfl rfl (fun _ _ _ => id) (fun _ _ => rfl) (fun u hu => ?_) rfl hs.jumps
    have hlt := hs.allocated u hu
    have hne : u ≠ t := fun heq => ht (heq ▸ hu)
    show u < s.nbTbs - 1
    omega
  next => exact hs

/-- Entries of the jump cache can be lost at any time. -/
theorem Indexed.forget (hs : Indexed s hashLists pageLists) {cache : UInt32 → Option ℕ}
    (hcache : ∀ h t, cache h = some t → s.jmpCache cpu h = some t) :
    Indexed { s with jmpCache := Function.update s.jmpCache cpu cache } hashLists pageLists := by
  refine hs.congr rfl rfl (fun c h t ht => ?_) (fun _ _ => rfl) hs.allocated rfl hs.jumps
  change Function.update s.jmpCache cpu cache c h = some t at ht
  by_cases hc : c = cpu
  · subst hc
    rw [Function.update_self] at ht
    exact hcache h t ht
  · rwa [Function.update_of_ne hc] at ht

theorem AllIndexed.step (hs : s.AllIndexed) {op : TbOp} (h : tbStep z s op = some s') :
    s'.AllIndexed := by
  obtain ⟨hashLists, pageLists, hs⟩ := hs
  cases op with
  | tbGenCode map pc csBase flags tr =>
    obtain ⟨⟨s', r⟩, hrun, rfl⟩ := map_eq_some_iff.mp h
    exact (hs.tbGenCode hrun).1
  | tbFindSlow map cpu pc csBase flags tr =>
    obtain ⟨⟨s', r⟩, hrun, rfl⟩ := map_eq_some_iff.mp h
    exact (hs.tbFindSlow hrun).1
  | tbFindFast map cpu pc csBase flags tr =>
    obtain ⟨⟨s', r⟩, hrun, rfl⟩ := map_eq_some_iff.mp h
    exact hs.tbFindFast hrun
  | tbPhysInvalidate t => exact ⟨_, _, (hs.of_tbPhysInvalidate h).2.2⟩
  | tbInvalidatePhysPageRange currentTb start stop =>
    have h : s.tbInvalidatePhysPageRange currentTb start stop = some s' := h
    rw [hs.tbInvalidatePhysPageRange_eq] at h
    exact (hs.of_invalidateAll h).2.2.2.2
  | tbFree t =>
    rw [tbStep] at h
    split at h
    · cases h
    next ht =>
      cases h
      exact ⟨_, _, hs.tbFree ht⟩
  | tbFlush => exact ⟨_, _, indexed_of_tbFlush h⟩
  | tlbFlush cpu =>
    cases h
    exact ⟨_, _, hs.forget nofun⟩
  | tlbFlushJmpCache cpu addr =>
    cases h
    refine ⟨_, _, hs.forget fun k t hk => ?_⟩
    split at hk
    · cases hk
    · exact hk
  | tbAddJump u n t =>
    obtain ⟨jumps, hjumps, rfl⟩ := map_eq_some_iff.mp h
    exact ⟨_, _, hs.jmpStep hjumps (live_of_tbAddJump hjumps)⟩
  | tbResetJumpRecursive t =>
    obtain ⟨jumps, hjumps, rfl⟩ := map_eq_some_iff.mp h
    exact ⟨_, _, hs.jmpStep hjumps (hs.jumps.live_of_tbResetJumpRecursive hjumps)⟩

end TbTable

section Reachable

open TbTable

variable {z : CacheSize} {tbs : ℕ → TbFields} {hashNext : ℕ → Option ℕ}
variable {pageNext : PageNode → Option PageNode} {jumps : JmpState} {ops : List TbOp} {s : TbTable}

theorem allIndexed_of_run
    (h : Runs.run (tbStep z) (initTbTable tbs hashNext pageNext jumps) ops = some s) :
    s.AllIndexed := by
  refine Runs.run_invariant (fun s op s' hs hstep => hs.step hstep) ?_ h
  exact ⟨_, _, indexed_of_live_eq_empty rfl (fun _ => rfl) (fun _ => rfl) fun _ _ => rfl⟩

/-- What the table is for: each list of `tb_phys_hash` ends, and enumerates the live blocks that
belong to it; and what the jump cache has is a live block that belongs there. -/
def LookupExact (s : TbTable) : Prop :=
  (∀ h, ∃ l, Chain s.hashCell .next (.head h) l ∧ l.Nodup ∧
    ∀ t, t ∈ l ↔ t ∈ s.live ∧ (s.tbs t).hash = some h) ∧
  ∀ cpu h t, s.jmpCache cpu h = some t → t ∈ s.live ∧ tbJmpCacheHashFunc (s.tbs t).pc = h

theorem TbTable.AllIndexed.lookupExact (hs : s.AllIndexed) : LookupExact s := by
  obtain ⟨hashLists, pageLists, hs⟩ := hs
  exact ⟨fun h => ⟨hashLists h, hs.hash.chain h, hs.hash.nodup h, fun t => hs.mem_hashLists⟩,
    hs.cache⟩

theorem exists_allocTb (hbuffer : s.codeGenPtr ≤ z.bufferSize) (hblocks : 0 < z.maxBlocks)
    (hsize : 0 < z.bufferMaxSize) (pc : UInt32) : ∃ r, s.allocTb z pc = some r := by
  rw [TbTable.allocTb]
  split
  next r _ => exact ⟨r, rfl⟩
  next =>
    rw [TbTable.tbFlush, if_neg (Nat.not_lt.mpr hbuffer), bind_some, TbTable.tbAlloc, if_neg]
    · exact ⟨_, rfl⟩
    · show ¬ (0 ≥ z.maxBlocks ∨ 0 ≥ z.bufferMaxSize)
      omega

theorem exists_tbGenCode (hbuffer : s.codeGenPtr ≤ z.bufferSize) (hblocks : 0 < z.maxBlocks)
    (hsize : 0 < z.bufferMaxSize) (map : CodeMap) (pc csBase : UInt32) (flags : UInt64)
    (translation : Option (Translation pc)) :
    ∃ r, s.tbGenCode z map pc csBase flags translation = some r := by
  obtain ⟨⟨s₁, t⟩, halloc⟩ := exists_allocTb (s := s) hbuffer hblocks hsize pc
  rw [TbTable.tbGenCode]
  split
  · exact ⟨_, rfl⟩
  rw [halloc, bind_eq_bind, bind_some]
  dsimp only
  split
  · exact ⟨_, rfl⟩
  split
  · exact ⟨_, rfl⟩
  · split <;> exact ⟨_, rfl⟩

/-- Lookup returns, unless the buffer for code has been overrun or has no room at all. -/
theorem TbTable.AllIndexed.exists_tbFindSlow (hs : s.AllIndexed)
    (hbuffer : s.codeGenPtr ≤ z.bufferSize) (hblocks : 0 < z.maxBlocks)
    (hsize : 0 < z.bufferMaxSize) (map : CodeMap) (cpu : ℕ) (pc csBase : UInt32) (flags : UInt64)
    (translation : Option (Translation pc)) :
    ∃ r, s.tbFindSlow z map cpu pc csBase flags translation = some r := by
  obtain ⟨hashLists, pageLists, hs⟩ := hs
  obtain ⟨⟨s₁, r₁⟩, hgen⟩ :=
    exists_tbGenCode (s := s) hbuffer hblocks hsize map pc csBase flags translation
  rw [TbTable.tbFindSlow]
  split
  · exact ⟨_, rfl⟩
  next page _ =>
  dsimp only
  set k := tbPhysHashFunc (physPc page pc)
  obtain ⟨c, hseek⟩ : ∃ c, seek s.hashCell .next (fun tb =>
      s.isWanted map pc csBase flags page tb != some false) s.bound (.head k) = some c := by
    have hlen := hs.hashLists_length k
    rcases exists_first (fun tb => s.isWanted map pc csBase flags page tb != some false)
        (hashLists k) with hnone | ⟨l₁, t, l₂, hl, hpass, ht⟩
    · exact ⟨_, (hs.hash.chain k).seek_end hnone hlen⟩
    · rw [hl, length_append] at hlen
      exact ⟨_, ((hl ▸ hs.hash.chain k).seek_found hpass ht (by omega)).1⟩
  rw [hseek, bind_eq_bind, bind_some]
  split
  · split <;> exact ⟨_, rfl⟩
  · rw [hgen, bind_eq_bind, bind_some]
    cases r₁ <;> exact ⟨_, rfl⟩

/-- A run from memory without contents, with room for one block. -/
def runSmall (ops : List TbOp) : Option TbTable :=
  Runs.run (tbStep ⟨1, 64, 128⟩) (initTbTable (fun _ => ⟨0, 0, 0, 0, fun _ => none, 0⟩)
    (fun _ => none) (fun _ => none) ⟨fun _ => none, fun _ _ => .absent, ∅⟩) ops

/-- **Lookup finds live blocks.** After any history, from any contents of the array of blocks: the
table is exact; lookup returns, and if it returns a block, then the block is the one asked for and
at the head of its list; and every live block can be invalidated. -/
theorem lookup_finds_live_block
    (h : Runs.run (tbStep z) (initTbTable tbs hashNext pageNext jumps) ops = some s) :
    LookupExact s ∧
      (∀ map cpu pc csBase flags translation,
        (∀ s' tb, s.tbFindSlow z map cpu pc csBase flags translation = some (s', some tb) →
          LookupExact s' ∧ IsFound map pc csBase flags s' tb) ∧
        (s.codeGenPtr ≤ z.bufferSize → 0 < z.maxBlocks → 0 < z.bufferMaxSize →
          ∃ r, s.tbFindSlow z map cpu pc csBase flags translation = some r)) ∧
      ∀ t ∈ s.live, ∃ s', s.tbPhysInvalidate t = some s' := by
  have hs := allIndexed_of_run h
  refine ⟨hs.lookupExact, fun map cpu pc csBase flags tr => ⟨fun s' tb hfind => ?_,
    fun hbuffer hblocks hsize => hs.exists_tbFindSlow hbuffer hblocks hsize ..⟩, fun t ht => ?_⟩
  · obtain ⟨hashLists, pageLists, hs⟩ := hs
    obtain ⟨hs', hfound⟩ := hs.tbFindSlow hfind
    exact ⟨AllIndexed.lookupExact hs', hfound tb rfl⟩
  · obtain ⟨hashLists, pageLists, hs⟩ := hs
    obtain ⟨s', hrun, -⟩ := hs.tbPhysInvalidate_eq ht
    exact ⟨s', hrun⟩

/-- Two blocks for one list, and no room for the second: looking it up ends at the field of the
first, flushes the table and puts the second block where the first has been. -/
theorem lookup_after_flush :
    ∃ s, runSmall [.tbFindSlow some 0 0 0 0 (some ⟨4, 16, fun _ => false, by decide, by decide⟩),
        .tbFindSlow some 0 0x20000 0 0 (some ⟨4, 16, fun _ => false, by decide, by decide⟩)] =
          some s ∧ s.live = {0} ∧ (s.tbs 0).pc = 0x20000 ∧ s.hashCell (.head 0) = some 0 ∧
      LookupExact s ∧ ∃ s' tb, s.tbFindSlow ⟨1, 64, 128⟩ some 1 0x20000 0 0 none =
        some (s', some tb) ∧ IsFound some 0x20000 0 0 s' tb := by
  refine Runs.exists_of_map (fun s => (s.live, (s.tbs 0).pc, s.hashCell (.head 0),
    (s.tbFindSlow ⟨1, 64, 128⟩ some 1 0x20000 0 0 none).map (·.2))) ({0}, 0x20000, some 0,
    some (some 0))
    (by decide +kernel) fun s hs heq => ?_
  simp only [Prod.mk.injEq] at heq
  obtain ⟨hlive, hpc, hhead, hfind⟩ := heq
  obtain ⟨⟨s', r⟩, hrun, rfl⟩ := map_eq_some_iff.mp hfind
  obtain ⟨hexact, hfound, -⟩ := lookup_finds_live_block hs
  exact ⟨hlive, hpc, hhead, hexact, s', 0, hrun, ((hfound ..).1 s' 0 hrun).2⟩

/-! ### Where the code of a block is -/

/-- The physical address of the byte of guest code that is `i` bytes behind the start of a block. -/
def TbFields.byteAddr (t : TbFields) (i : ℕ) : Option ℕ :=
  if pageOffset t.pc + i < targetPageSize then
    (t.pageAddr 0).map fun page => page * targetPageSize + (pageOffset t.pc + i)
  else (t.pageAddr 1).map fun page => page * targetPageSize + (pageOffset t.pc + i - targetPageSize)

/-- Some byte of the code of a block is in a range. -/
def TbFields.Intersects (t : TbFields) (start stop : ℕ) : Prop :=
  ∃ i < t.size, ∃ a, t.byteAddr i = some a ∧ start ≤ a ∧ a < stop

/-- `tb_start` of `build_page_bitmap`: where the code of a block starts on its page `n`. -/
def TbFields.bitmapStart (t : TbFields) (n : Fin 2) : ℕ := if n = 0 then pageOffset t.pc else 0

/-- `tb_end` of `build_page_bitmap`. -/
def TbFields.bitmapEnd (t : TbFields) (n : Fin 2) : ℕ :=
  if n = 0 then min (pageOffset t.pc + t.size) targetPageSize
  else (pageOffset t.pc + t.size) % targetPageSize

theorem TbFields.bitmapEnd_le (t : TbFields) (n : Fin 2) : t.bitmapEnd n ≤ targetPageSize := by
  rw [bitmapEnd]
  split
  · exact Nat.min_le_right _ _
  · exact Nat.le_of_lt (Nat.mod_lt _ (by decide))

/-- The code of a block, page by page. -/
theorem TbFields.Sound.intersects_iff {t : TbFields} (ht : t.Sound) {start stop : ℕ} :
    t.Intersects start stop ↔ ∃ n p, t.pageAddr n = some p ∧ ∃ j, t.bitmapStart n ≤ j ∧
      j < t.bitmapEnd n ∧ start ≤ p * targetPageSize + j ∧ p * targetPageSize + j < stop := by
  have hle := ht.size_le
  constructor
  · rintro ⟨i, hi, a, ha, hstart, hstop⟩
    rw [byteAddr] at ha
    split at ha
    next hfirst =>
      obtain ⟨p, hn, rfl⟩ := map_eq_some_iff.mp ha
      exact ⟨0, p, hn, pageOffset t.pc + i, Nat.le_add_right _ _,
        Nat.lt_min.mpr ⟨Nat.add_lt_add_left hi _, hfirst⟩, hstart, hstop⟩
    next hsecond =>
      obtain ⟨p, hn, rfl⟩ := map_eq_some_iff.mp ha
      refine ⟨1, p, hn, pageOffset t.pc + i - targetPageSize, Nat.zero_le _, ?_, hstart, hstop⟩
      show _ < (pageOffset t.pc + t.size) % targetPageSize
      unfold targetPageSize at *
      omega
  · rintro ⟨n, p, hn, j, hfrom, hto, hin⟩
    match n with
    | 0 =>
      have hfrom : pageOffset t.pc ≤ j := hfrom
      have hto : j < min (pageOffset t.pc + t.size) targetPageSize := hto
      refine ⟨j - pageOffset t.pc, by omega, p * targetPageSize + j, ?_, hin⟩
      rw [byteAddr, if_pos (by omega), hn, map_some, Nat.add_sub_cancel' hfrom]
    | 1 =>
      have hto : j < (pageOffset t.pc + t.size) % targetPageSize := hto
      have hoff : pageOffset t.pc < targetPageSize := Nat.mod_lt _ (by decide)
      refine ⟨targetPageSize + j - pageOffset t.pc, ?_, p * targetPageSize + j, ?_, hin⟩
      · have htwo := ht.second.mp (by rw [hn]; exact some_ne_none p)
        unfold targetPageSize at *
        omega
      · rw [byteAddr, if_neg (by omega), hn, map_some]
        refine congrArg some ?_
        omega

/-- The test of the walk, for a block with code. -/
theorem overlaps_iff {t start stop : ℕ} {n : Fin 2} (ht : (s.tbs t).Sound)
    (hpage : (s.tbs t).pageAddr n = some (start / targetPageSize)) :
    s.overlaps start stop (t, n) = true ∧ 0 < (s.tbs t).size ↔
      (s.tbs t).bitmapStart n < (s.tbs t).bitmapEnd n ∧
        start < start / targetPageSize * targetPageSize + (s.tbs t).bitmapEnd n ∧
          start / targetPageSize * targetPageSize + (s.tbs t).bitmapStart n < stop := by
  have hoff : pageOffset (s.tbs t).pc < targetPageSize := Nat.mod_lt _ (by decide)
  match n with
  | 0 =>
    simp only [overlaps, hpage, tbEnd, tbStart, physPc, TbFields.bitmapStart, TbFields.bitmapEnd]
    simp
    unfold targetPageSize at *
    omega
  | 1 =>
    -- the code reaches over the end of its first page, but not by another page
    have htwo := ht.second.mp (by rw [hpage]; exact some_ne_none _)
    have hle := ht.size_le
    simp only [overlaps, hpage, tbEnd, tbStart, TbFields.bitmapStart, TbFields.bitmapEnd]
    simp
    unfold targetPageSize at *
    omega

theorem exists_overlaps_iff {t start stop : ℕ} (ht : (s.tbs t).Sound) (hlt : start < stop)
    (hstop : stop ≤ (start / targetPageSize + 1) * targetPageSize) :
    (∃ n, (s.tbs t).pageAddr n = some (start / targetPageSize) ∧
      s.overlaps start stop (t, n) = true ∧ 0 < (s.tbs t).size) ↔
      (s.tbs t).Intersects start stop := by
  rw [ht.intersects_iff]
  constructor
  · rintro ⟨n, hpage, hover⟩
    obtain ⟨hcode, hfrom, hto⟩ := (overlaps_iff ht hpage).mp hover
    have hmod := Nat.div_add_mod' start targetPageSize
    exact ⟨n, _, hpage, max (start % targetPageSize) ((s.tbs t).bitmapStart n), by omega⟩
  · rintro ⟨n, p, hpage, j, hfrom, hto, hstart, hstop'⟩
    have hle := (s.tbs t).bitmapEnd_le n
    obtain rfl : p = start / targetPageSize := by
      unfold targetPageSize at *
      omega
    exact ⟨n, hpage, (overlaps_iff ht hpage).mpr (by omega)⟩

/-! ### Blocks in a range -/

/-- The block is on the list `tb_phys_hash[h]`. -/
def TbTable.InHash (s : TbTable) (h t : ℕ) : Prop :=
  ∃ l, Chain s.hashCell .next (.head h) l ∧ t ∈ l

/-- The pointer is on the list of a page. -/
def TbTable.InPage (s : TbTable) (p : ℕ) (x : PageNode) : Prop :=
  ∃ l, Chain s.pageCell .next (.first p) l ∧ x ∈ l

section Indexed

variable {hashLists : ℕ → List ℕ} {pageLists : ℕ → List PageNode}
    (hs : s.Indexed hashLists pageLists)
include hs

theorem TbTable.Indexed.inHash_iff (h t : ℕ) :
    s.InHash h t ↔ t ∈ s.live ∧ (s.tbs t).hash = some h :=
  (hs.hash.exists_mem_iff h t).trans hashKey_eq_some

theorem TbTable.Indexed.inPage_iff (p : ℕ) (x : PageNode) :
    s.InPage p x ↔ x.1 ∈ s.live ∧ (s.tbs x.1).pageAddr x.2 = some p :=
  (hs.page.exists_mem_iff p x).trans pageKey_eq_some

/-- What invalidation of a range is for: the lists keep exactly the blocks with no code in the
range. -/
def RangeInvalidated (s s' : TbTable) (start stop : ℕ) : Prop :=
  (∀ h t, s'.InHash h t ↔ s.InHash h t ∧ ¬ (s.tbs t).Intersects start stop) ∧
    ∀ p x, s'.InPage p x ↔ s.InPage p x ∧ ¬ (s.tbs x.1).Intersects start stop

/-- What the walk takes for granted: the range overlaps not both parts of a block that lies on this
page with both of its pages, and the test finds no block without code, and none in an empty
range. -/
def WalkSafe (s : TbTable) (start stop : ℕ) : Prop :=
  ∀ t ∈ s.live,
    ((∀ n, (s.tbs t).pageAddr n = some (start / targetPageSize)) →
      ¬ ∀ n, s.overlaps start stop (t, n) = true) ∧
    ∀ n, (s.tbs t).pageAddr n = some (start / targetPageSize) →
      s.overlaps start stop (t, n) = true → start < stop ∧ 0 < (s.tbs t).size

instance (s : TbTable) (start stop : ℕ) : Decidable (WalkSafe s start stop) :=
  inferInstanceAs (Decidable (∀ t ∈ s.live, _ ∧ _))

variable {start stop p t : ℕ}

theorem TbTable.Indexed.mem_hits_iff : t ∈ s.hits start stop (pageLists p) ↔
    t ∈ s.live ∧ ∃ n, (s.tbs t).pageAddr n = some p ∧ s.overlaps start stop (t, n) = true := by
  rw [hits, List.mem_map]
  constructor
  · rintro ⟨⟨u, n⟩, hx, rfl⟩
    obtain ⟨hmem, hover⟩ := List.mem_filter.mp hx
    obtain ⟨hlive, hpage⟩ := hs.mem_pageLists.mp hmem
    exact ⟨hlive, n, hpage, hover⟩
  · rintro ⟨hlive, n, hpage, hover⟩
    exact ⟨(t, n), List.mem_filter.mpr ⟨hs.mem_pageLists.mpr ⟨hlive, hpage⟩, hover⟩, rfl⟩

/-- A block is named twice when the test finds both of its pointers. -/
theorem TbTable.Indexed.nodup_hits_iff :
    (s.hits start stop (pageLists p)).Nodup ↔
      ∀ t ∈ s.live, (∀ n, (s.tbs t).pageAddr n = some p) →
        ¬ ∀ n, s.overlaps start stop (t, n) = true := by
  have hnodup := (hs.page.nodup p).filter (s.overlaps start stop)
  rw [hits, nodup_map_iff_inj_on hnodup]
  constructor
  · intro hinj t ht hpage hover
    have hmem : ∀ n, (t, n) ∈ (pageLists p).filter (s.overlaps start stop) := fun n =>
      List.mem_filter.mpr ⟨hs.mem_pageLists.mpr ⟨ht, hpage n⟩, hover n⟩
    exact absurd (hinj _ (hmem 0) _ (hmem 1) rfl) (by simp)
  · rintro hnot ⟨t, n⟩ hx ⟨u, m⟩ hy heq
    obtain rfl : t = u := heq
    by_contra hne
    have hnm : n ≠ m := fun h => hne (by rw [h])
    obtain ⟨hx, hoverx⟩ := List.mem_filter.mp hx
    obtain ⟨hy, hovery⟩ := List.mem_filter.mp hy
    obtain ⟨ht, hkx⟩ := hs.mem_pageLists.mp hx
    obtain ⟨-, hky⟩ := hs.mem_pageLists.mp hy
    have hall : ∀ i, i = n ∨ i = m := by omega
    refine hnot t ht (fun i => ?_) fun i => ?_
    · rcases hall i with rfl | rfl
      · exact hkx
      · exact hky
    · rcases hall i with rfl | rfl
      · exact hoverx
      · exact hovery

end Indexed

/-- **When the blocks in a range are invalidated.** In every state that can be reached and for every
range inside one page, with any block being executed: the walk ends and the lists keep exactly the
blocks with no code in the range if and only if the walk is safe. -/
theorem range_invalidated_iff
    (h : Runs.run (tbStep z) (initTbTable tbs hashNext pageNext jumps) ops = some s)
    {currentTb : Option ℕ} (hcur : s.Interruptible currentTb) {start stop : ℕ}
    (hstop : stop ≤ (start / targetPageSize + 1) * targetPageSize) :
    (∃ s', s.tbInvalidatePhysPageRange currentTb start stop = some s' ∧
      RangeInvalidated s s' start stop) ↔ WalkSafe s start stop := by
  obtain ⟨hashLists, pageLists, hs⟩ := allIndexed_of_run h
  rw [hs.tbInvalidatePhysPageRange_eq]
  constructor
  · rintro ⟨s', hrun, hgone, -⟩ t ht
    obtain ⟨hnodup, -, htbs, hlive, hashLists', pageLists', hs'⟩ := hs.of_invalidateAll hrun
    refine ⟨hs.nodup_hits_iff.mp hnodup t ht, fun n hpage hover => ?_⟩
    -- the block was invalidated, so it must have had code in the range
    have hhit := hs.mem_hits_iff.mpr ⟨ht, n, hpage, hover⟩
    obtain ⟨page, hfirst⟩ := (hs.sound t ht).first
    have hin : s.InHash (tbPhysHashFunc (physPc page (s.tbs t).pc)) t :=
      (hs.inHash_iff _ t).mpr ⟨ht, by rw [TbFields.hash, hfirst]; rfl⟩
    have hout : ¬ s'.InHash (tbPhysHashFunc (physPc page (s.tbs t).pc)) t := by
      rw [hs'.inHash_iff, hlive, mem_sdiff, List.mem_toFinset]
      exact fun hmem => hmem.1.2 hhit
    obtain ⟨i, hi, a, -, hstart, hstop⟩ : (s.tbs t).Intersects start stop := by
      by_contra hnot
      exact hout ((hgone _ t).mpr ⟨hin, hnot⟩)
    omega
  · intro hsafe
    obtain ⟨s', hrun⟩ := hs.exists_invalidateAll hcur
      (hs.nodup_hits_iff.mpr fun t ht => (hsafe t ht).1) fun t ht => (hs.mem_hits_iff.mp ht).1
    obtain ⟨-, -, htbs, hlive, hashLists', pageLists', hs'⟩ := hs.of_invalidateAll hrun
    have hmem : ∀ t, t ∈ s'.live ↔ t ∈ s.live ∧ ¬ (s.tbs t).Intersects start stop := by
      intro t
      rw [hlive, mem_sdiff, List.mem_toFinset]
      refine and_congr_right fun ht => not_congr ?_
      rw [hs.mem_hits_iff]
      constructor
      · rintro ⟨-, n, hpage, hover⟩
        obtain ⟨hlt, hsize⟩ := (hsafe t ht).2 n hpage hover
        exact (exists_overlaps_iff (hs.sound t ht) hlt hstop).mp ⟨n, hpage, hover, hsize⟩
      · intro hint
        have hlt : start < stop := by
          obtain ⟨i, -, a, -, hstart, hstop⟩ := hint
          omega
        obtain ⟨n, hpage, hover, -⟩ := (exists_overlaps_iff (hs.sound t ht) hlt hstop).mpr hint
        exact ⟨ht, n, hpage, hover⟩
    refine ⟨s', hrun, fun k t => ?_, fun p x => ?_⟩
    · rw [hs'.inHash_iff, hs.inHash_iff, hmem, htbs, and_right_comm]
    · rw [hs'.inPage_iff, hs.inPage_iff, hmem, htbs, and_right_comm]

/-- A block on two pages is invalidated when the first of them is written. -/
theorem range_invalidated_on_first_page :
    ∃ s, runSmall [.tbGenCode some 1022 0 0
        (some ⟨4, 16, fun _ => false, by decide, by decide⟩)] = some s ∧ s.live = {0} ∧
      WalkSafe s 0 1024 ∧ ∃ s', s.tbInvalidatePhysPageRange (some 0) 0 1024 = some s' ∧
        RangeInvalidated s s' 0 1024 := by
  refine Runs.exists_of_map (fun s => (s.live, decide (WalkSafe s 0 1024))) ({0}, true)
    (by decide +kernel)
    fun s hs heq => ?_
  simp only [Prod.mk.injEq, decide_eq_true_eq] at heq
  obtain ⟨hlive, hsafe⟩ := heq
  have hcur : s.Interruptible (some 0) := by
    intro u hu
    cases hu
    exact .inl (show 0 ∈ s.live by rw [hlive]; exact Finset.mem_singleton_self 0)
  exact ⟨hlive, hsafe, (range_invalidated_iff hs hcur (by decide)).mpr hsafe⟩

/-- **Both pages of a block on one physical page.** The instruction at the end of the page is
continued at the start of the same physical page. The walk over the list of the page finds the
block, invalidates it, finds it again, and looks for it on a list that it is no longer on. -/
theorem block_twice_on_page :
    ∃ s, runSmall [.tbGenCode (fun _ => some 0) 1022 0 0
        (some ⟨4, 16, fun _ => false, by decide, by decide⟩)] = some s ∧ s.live = {0} ∧
      s.tbInvalidatePhysPageRange none 0 1024 = none := by
  refine Runs.exists_of_map (fun s => (s.live, (s.tbInvalidatePhysPageRange none 0 1024).isNone))
    ({0}, true) (by decide +kernel) fun s _ heq => ?_
  simpa only [Prod.mk.injEq, isNone_iff_eq_none] using heq

end Reachable

end VariabilityTestbed.Exec
