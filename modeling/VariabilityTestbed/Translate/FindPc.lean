import VariabilityTestbed.Lib.Bisection
import VariabilityTestbed.Translate.CodeCache

/-!
# From a host address to its block

`tb_find_pc` looks for the block that a host address is in, by bisection over `tc_ptr`. The array of
blocks is in the order of the code, but not every entry has code of its own: when a translation is
abandoned by a fault the entry stays, and the next block starts at the same place. The search goes
to the last entry below the address. Entries without code come before the block that shares their
place, and so they are never found from the inside of a block.
-/

namespace VariabilityTestbed.Translate

open Function Runs Variability Words Option

/-! ### The lookup -/

/-- `tb_find_pc`, for a buffer at the host address `buffer`. -/
def tbFindPc (buffer : ℕ) (c : CodeCache) (tcPtr : ℕ) : Option ℕ :=
  if c.nbTbs = 0 then none
  else if tcPtr < buffer ∨ buffer + c.codeGenPtr ≤ tcPtr then none
  else Bisection.search (fun m => buffer + (c.tbs m).tcPtr) tcPtr 0 c.nbTbs

/-! ### The code of the blocks -/

/-- The cache, and the size of the host code in the entries that hold a block generated to the
end. -/
structure TrackedCache where
  cache : CodeCache
  code : ℕ → Option ℕ

/-- What an operation does to the sizes. -/
def trackCode (z : CacheSize) (s : TrackedCache) : CacheOp → ℕ → Option ℕ
  | .tbGenCode e tb codeGenSize _ =>
    update (if s.cache.full z then fun _ => none else s.code) (nextSlot z s.cache)
      (if (translateNew s.cache e tb).completed then some codeGenSize else none)
  | .tbFree i => if 0 < s.cache.nbTbs ∧ i = s.cache.nbTbs - 1 then update s.code i none else s.code
  | .tbFlush => fun _ => none
  | .cpuRestoreState .. => s.code
  | .doSinglestep _ => s.code

/-- One operation. -/
def trackedStep (z : CacheSize) (insnMap : Option InsnMap) (s : TrackedCache) (op : CacheOp) :
    Option TrackedCache :=
  (cacheStep z insnMap s.cache op).map fun c => ⟨c, trackCode z s op⟩

/-- Program start. -/
def trackedInit (tbs : ℕ → TbSlot) (flags : StepFlags) (opcMap : OpcMap) : TrackedCache :=
  ⟨initCache tbs flags opcMap, fun _ => none⟩

variable {z : CacheSize} {insnMap : Option InsnMap} {c c' : CodeCache} {s s' : TrackedCache}

/-- Where the code of an entry starts. The entry that comes next starts at `code_gen_ptr`. -/
def CodeCache.start (c : CodeCache) (i : ℕ) : ℕ :=
  if i < c.nbTbs then (c.tbs i).tcPtr else c.codeGenPtr

/-- **The entries are in the order of their code, and blocks do not overlap.** -/
structure Packed (s : TrackedCache) : Prop where
  allocated : ∀ i n, s.code i = some n → i < s.cache.nbTbs
  sorted : ∀ i j, i ≤ j → j ≤ s.cache.nbTbs → s.cache.start i ≤ s.cache.start j
  room : ∀ i n j, s.code i = some n → i < j → j ≤ s.cache.nbTbs → s.cache.start i + n ≤
    s.cache.start j

theorem packed_of_empty (hnb : s.cache.nbTbs = 0) (hcode : ∀ i, s.code i = none) : Packed s where
  allocated i n hi := nomatch (hcode i).symm.trans hi
  sorted i j hij hj := by
    rw [hnb] at hj
    obtain rfl : j = 0 := Nat.le_zero.mp hj
    obtain rfl : i = 0 := Nat.le_zero.mp hij
    exact Nat.le_refl _
  room i n j hi := nomatch (hcode i).symm.trans hi

/-! ### What the operations do -/

/-- An operation that only takes entries back. -/
theorem Packed.of_kept (h : Packed s) (hnb : s'.cache.nbTbs ≤ s.cache.nbTbs)
    (hstart : ∀ i ≤ s'.cache.nbTbs, s'.cache.start i = s.cache.start i)
    (hcode : ∀ i n, s'.code i = some n → s.code i = some n ∧ i < s'.cache.nbTbs) : Packed s' where
  allocated i n hi := (hcode i n hi).2
  sorted i j hij hj := by
    rw [hstart i (by omega), hstart j hj]
    exact h.sorted i j hij (by omega)
  room i n j hi hij hj := by
    rw [hstart i (by omega), hstart j hj]
    exact h.room i n j (hcode i n hi).1 hij (by omega)

/-- An operation that puts one more entry behind them. -/
theorem Packed.of_added (h : Packed s) {k : ℕ} (hk : k ≤ s.cache.nbTbs)
    (hnb : s'.cache.nbTbs = k + 1) (hstart : ∀ i ≤ k, s'.cache.start i = s.cache.start i)
    (hend : s'.cache.start k ≤ s'.cache.start (k + 1))
    (hcode : ∀ i ≠ k, ∀ n, s'.code i = some n → s.code i = some n ∧ i < k)
    (hnew : ∀ n, s'.code k = some n → s'.cache.start k + n ≤ s'.cache.start (k + 1)) :
    Packed s' := by
  have hsorted : ∀ i j, i ≤ j → j ≤ k + 1 → s'.cache.start i ≤ s'.cache.start j := by
    intro i j hij hj
    rcases Nat.lt_or_ge j (k + 1) with hjk | hjk
    · rw [hstart i (by omega), hstart j (by omega)]
      exact h.sorted i j hij (by omega)
    · obtain rfl : j = k + 1 := by omega
      rcases Nat.lt_or_ge i (k + 1) with hik | hik
      · refine Nat.le_trans ?_ hend
        rw [hstart i (by omega), hstart k (Nat.le_refl k)]
        exact h.sorted i k (by omega) hk
      · obtain rfl : i = k + 1 := by omega
        exact Nat.le_refl _
  refine ⟨fun i n hi => ?_, fun i j hij hj => hsorted i j hij (by omega), fun i n j hi hij hj => ?_⟩
  · rw [hnb]
    by_cases hik : i = k
    · omega
    · have := (hcode i hik n hi).2
      omega
  · rw [hnb] at hj
    by_cases hik : i = k
    · subst hik
      obtain rfl : j = i + 1 := by omega
      exact hnew n hi
    · obtain ⟨hold, hlt⟩ := hcode i hik n hi
      -- the block ends before entry `k`, which starts no later than `j`
      by_cases hjk : j ≤ k
      · rw [hstart i (by omega), hstart j hjk]
        exact h.room i n j hold hij (by omega)
      · refine Nat.le_trans ?_ (hsorted k j (by omega) hj)
        rw [hstart i (by omega), hstart k (Nat.le_refl k)]
        exact h.room i n k hold hlt hk

theorem codeGenAlign_ge (n : ℕ) : n ≤ codeGenAlign n := by
  rw [codeGenAlign]
  omega

theorem tcPtr_update {tbs : ℕ → TbSlot} {k : ℕ} {slot : TbSlot}
    (h : slot.tcPtr = (tbs k).tcPtr) (j : ℕ) :
    (update tbs k slot j).tcPtr = (tbs j).tcPtr := by
  by_cases hj : j = k
  · subst hj
    rw [update_self, h]
  · rw [update_of_ne hj]

/-- The cache in which `tb_gen_code` translates: flushed if there was no room. -/
structure AllocatedAt (z : CacheSize) (c c' : CodeCache) (i : ℕ) : Prop where
  slot : i = nextSlot z c
  nbTbs : c'.nbTbs = i + 1
  codeGenPtr : c'.codeGenPtr = if c.full z then 0 else c.codeGenPtr
  tcPtr : ∀ j, (c'.tbs j).tcPtr = (c.tbs j).tcPtr
  flags : c'.flags = c.flags
  opcMap : c'.opcMap = c.opcMap

theorem allocatedAt_of_allocTb {pc : UInt32} {i : ℕ} (h : allocTb z c pc = some (c', i)) :
    AllocatedAt z c c' i := by
  rw [allocTb, tbAlloc] at h
  by_cases hfull : c.full z = true
  · simp only [hfull, if_true, tbFlush] at h
    split_ifs at h
    · cases h
    rw [bind_some, tbAlloc] at h
    split_ifs at h
    cases h
    exact ⟨by rw [nextSlot, if_pos hfull], rfl, by rw [if_pos hfull], tcPtr_update rfl, rfl, rfl⟩
  · simp only [hfull, if_false, Bool.false_eq_true] at h
    cases h
    exact ⟨by rw [nextSlot, if_neg hfull], rfl, by rw [if_neg hfull], tcPtr_update rfl, rfl, rfl⟩

/-- `tb_gen_code`: the new entry starts where the free part of the buffer did, and the free part
then starts behind its code. -/
theorem tbGenCode_start {e : TransEnv} {tb : TbHeader} {codeGenSize : ℕ} {page2Fault : Bool}
    (h : tbGenCode z insnMap c e tb codeGenSize page2Fault = some c') :
    c'.nbTbs = nextSlot z c + 1 ∧
      (∀ i ≤ nextSlot z c, c'.start i = if c.full z then 0 else c.start i) ∧
      c'.start (nextSlot z c + 1) = if (translateNew c e tb).completed then
        codeGenAlign (c'.start (nextSlot z c) + codeGenSize) else c'.start (nextSlot z c) := by
  simp only [tbGenCode, bind, bind_eq_some_iff] at h
  obtain ⟨⟨c₁, i⟩, halloc, cc, -, h⟩ := h
  have hat := allocatedAt_of_allocTb halloc
  obtain rfl := hat.slot
  have hp : genIntermediateCodeInternal e tb false c₁.flags c₁.opcMap = translateNew c e tb := by
    rw [hat.flags, hat.opcMap]
    rfl
  -- the entries up to the new one, whatever becomes of the free part
  have hstart : ∀ (slot : TbSlot) (ptr : ℕ) (flags : StepFlags) (origin : ℕ → Option Origin),
      slot.tcPtr = c₁.codeGenPtr → ∀ i ≤ nextSlot z c,
      (CodeCache.mk (update c₁.tbs (nextSlot z c) slot) c₁.nbTbs ptr flags c₁.opcMap
        origin).start i = if c.full z then 0 else c.start i := by
    intro slot ptr flags origin hslot i hi
    rw [CodeCache.start, if_pos (show i < c₁.nbTbs by rw [hat.nbTbs]; omega)]
    dsimp only
    by_cases hfull : c.full z = true
    · have hzero : nextSlot z c = 0 := by rw [nextSlot, if_pos hfull]
      obtain rfl : i = nextSlot z c := by omega
      rw [update_self, hslot, hat.codeGenPtr]
      simp [hfull]
    · have hlast : nextSlot z c = c.nbTbs := by rw [nextSlot, if_neg hfull]
      rw [if_neg hfull, CodeCache.start]
      by_cases hik : i = nextSlot z c
      · subst hik
        rw [update_self, hslot, hat.codeGenPtr, if_neg hfull, if_neg (by omega)]
      · rw [update_of_ne hik, hat.tcPtr, if_pos (by omega)]
  dsimp only at h
  rw [hp] at h
  split at h
  · cases h
  cases hcompleted : (translateNew c e tb).completed with
  | false | true =>
    rw [hcompleted] at h
    cases h
    refine ⟨hat.nbTbs, hstart _ _ _ _ rfl, ?_⟩
    rw [CodeCache.start, CodeCache.start]
    simp [hat.nbTbs]

/-- `cpu_restore_state` moves nothing. -/
theorem cpuRestoreState_start {i : ℕ} {e : TransEnv} {epilogueOps : ℕ}
    (h : cpuRestoreState insnMap c i e epilogueOps = some c') :
    c'.nbTbs = c.nbTbs ∧ c'.start = c.start := by
  simp only [cpuRestoreState, bind, bind_eq_some_iff] at h
  obtain ⟨cc, -, h⟩ := h
  have hstart : ∀ (flags : StepFlags) (opcMap : OpcMap),
      (CodeCache.mk (update c.tbs i { c.tbs i with cycleCount := cc }) c.nbTbs c.codeGenPtr flags
        opcMap c.origin).start = c.start := by
    intro flags opcMap
    have hkept : { c.tbs i with cycleCount := cc }.tcPtr = (c.tbs i).tcPtr := rfl
    funext j
    simp only [CodeCache.start, tcPtr_update hkept]
  split_ifs at h
  · cases h
    exact ⟨rfl, hstart _ _⟩
  · cases h
    exact ⟨rfl, hstart _ _⟩

theorem Packed.tbGenCode {e : TransEnv} {tb : TbHeader} {codeGenSize : ℕ} {page2Fault : Bool}
    (h : Packed s) (hc : tbGenCode z insnMap s.cache e tb codeGenSize page2Fault = some c') :
    Packed ⟨c', trackCode z s (.tbGenCode e tb codeGenSize page2Fault)⟩ := by
  obtain ⟨hnb, hstart, hend⟩ := tbGenCode_start hc
  have hslot : trackCode z s (.tbGenCode e tb codeGenSize page2Fault) (nextSlot z s.cache) =
      if (translateNew s.cache e tb).completed then some codeGenSize else none := update_self ..
  have hle : c'.start (nextSlot z s.cache) ≤ c'.start (nextSlot z s.cache + 1) := by
    rw [hend]
    split_ifs
    · exact Nat.le_trans (Nat.le_add_right _ _) (codeGenAlign_ge _)
    · exact Nat.le_refl _
  have hnew : ∀ n, trackCode z s (.tbGenCode e tb codeGenSize page2Fault)
      (nextSlot z s.cache) = some n →
      c'.start (nextSlot z s.cache) + n ≤ c'.start (nextSlot z s.cache + 1) := by
    intro n hn
    rw [hslot] at hn
    rw [hend]
    split_ifs at hn ⊢ with hcompleted
    cases hn
    exact codeGenAlign_ge _
  by_cases hfull : s.cache.full z = true
  · -- the entries behind which the new one is put are those of an empty cache
    have hempty : Packed ⟨{ s.cache with nbTbs := 0, codeGenPtr := 0 }, fun _ => none⟩ :=
      packed_of_empty rfl fun _ => rfl
    have hzero : nextSlot z s.cache = 0 := by rw [nextSlot, if_pos hfull]
    refine hempty.of_added (k := nextSlot z s.cache) (by simp [hzero]) hnb
      (fun i hi => ?_) hle ?_ hnew
    · rw [hstart i hi, if_pos hfull]
      simp [CodeCache.start]
    · intro i hi n hn
      simp [trackCode, update_of_ne hi, hfull] at hn
  · have hlast : nextSlot z s.cache = s.cache.nbTbs := by rw [nextSlot, if_neg hfull]
    refine h.of_added (k := nextSlot z s.cache) (by omega) hnb (fun i hi => ?_) hle ?_ hnew
    · rw [hstart i hi, if_neg hfull]
    · intro i hi n hn
      have hold : s.code i = some n := by
        simpa [trackCode, update_of_ne hi, hfull] using hn
      exact ⟨hold, hlast ▸ h.allocated i n hold⟩

theorem Packed.tbFree (h : Packed s) {i : ℕ} (hi : i < s.cache.nbTbs) :
    Packed ⟨Translate.tbFree s.cache i, trackCode z s (.tbFree i)⟩ := by
  by_cases hlast : 0 < s.cache.nbTbs ∧ i = s.cache.nbTbs - 1
  · refine h.of_kept ?_ (fun j hj => ?_) fun j n hj => ?_
    · simp only [Translate.tbFree, if_pos hlast]
      omega
    · simp only [Translate.tbFree, if_pos hlast, CodeCache.start] at hj ⊢
      by_cases hji : j < s.cache.nbTbs - 1
      · rw [if_pos hji, if_pos (by omega)]
      · obtain rfl : j = i := by omega
        rw [if_neg hji, if_pos hi]
    · simp only [trackCode, if_pos hlast] at hj
      simp only [Translate.tbFree, if_pos hlast]
      by_cases hji : j = i
      · rw [hji, update_self] at hj
        cases hj
      · rw [update_of_ne hji] at hj
        have := h.allocated j n hj
        exact ⟨hj, by omega⟩
  · rw [Translate.tbFree, if_neg hlast, trackCode, if_neg hlast]
    exact h

/-- **Every operation keeps the code in order.** -/
theorem Packed.step {op : CacheOp} (h : Packed s) (hs : trackedStep z insnMap s op = some s') :
    Packed s' := by
  obtain ⟨c', hc, rfl⟩ := map_eq_some_iff.mp hs
  cases op with
  | tbGenCode e tb codeGenSize page2Fault => exact h.tbGenCode hc
  | tbFree i =>
    rw [cacheStep] at hc
    split_ifs at hc with hi
    cases hc
    exact h.tbFree hi
  | tbFlush =>
    simp only [cacheStep, tbFlush] at hc
    split_ifs at hc
    cases hc
    exact packed_of_empty rfl fun _ => rfl
  | cpuRestoreState i e epilogueOps =>
    rw [cacheStep] at hc
    split_ifs at hc
    obtain ⟨hnb, hstart⟩ := cpuRestoreState_start hc
    exact h.of_kept hnb.le (fun i _ => congrFun hstart i) fun i n hi =>
      ⟨hi, hnb ▸ h.allocated i n hi⟩
  | doSinglestep option =>
    cases hc
    exact ⟨h.allocated, h.sorted, h.room⟩

/-- **A host address is attributed to the right block.** In every run the entries are sorted by
`tc_ptr`, and from any address inside the code of a block `tb_find_pc` finds the block. -/
theorem tbFindPc_of_run {tbs : ℕ → TbSlot} {flags : StepFlags} {opcMap : OpcMap}
    {ops : List CacheOp}
    (h : run (trackedStep z insnMap) (trackedInit tbs flags opcMap) ops = some s) (buffer : ℕ) :
    (∀ i j, i ≤ j → j < s.cache.nbTbs → (s.cache.tbs i).tcPtr ≤ (s.cache.tbs j).tcPtr) ∧
      ∀ t n p, s.code t = some n → buffer + (s.cache.tbs t).tcPtr < p →
        p < buffer + (s.cache.tbs t).tcPtr + n → tbFindPc buffer s.cache p = some t := by
  have hpacked : Packed s :=
    run_invariant (fun _ _ _ hs => hs.step) (packed_of_empty rfl fun _ => rfl) h
  have hstart : ∀ i < s.cache.nbTbs, s.cache.start i = (s.cache.tbs i).tcPtr :=
    fun i hi => if_pos hi
  have hend : s.cache.start s.cache.nbTbs = s.cache.codeGenPtr := if_neg (Nat.lt_irrefl _)
  refine ⟨fun i j hij hj => ?_, fun t n p hcode hlow hhigh => ?_⟩
  · rw [← hstart i (by omega), ← hstart j hj]
    exact hpacked.sorted i j hij (by omega)
  · have ht := hpacked.allocated t n hcode
    have hroom := hpacked.room t n
    have hlast := hroom s.cache.nbTbs hcode ht (Nat.le_refl _)
    rw [hstart t ht, hend] at hlast
    rw [tbFindPc, if_neg (by omega), if_neg (by omega)]
    refine Bisection.search_eq (by omega) ht (fun j hj => ?_) fun j htj hj => ?_
    · have := hpacked.sorted j t hj (by omega)
      rw [hstart j (by omega), hstart t ht] at this
      omega
    · have := hroom j hcode htj (by omega)
      rw [hstart j hj, hstart t ht] at this
      omega

/-- Guest code that cannot be fetched. -/
def faultEnv : TransEnv := { branchEnv with disasArmInsn := fun _ => .fault [] }

/-- A translation that is abandoned, and then a block of 32 bytes at the same place. -/
def faultThenBranch : List CacheOp := [.tbGenCode faultEnv ⟨0, 0, 0⟩ 0 false, genBranch]

/-- The second entry is found, although the first one starts at the same place. -/
theorem tbFindPc_after_fault :
    ∃ s, run (trackedStep smallCache (some branchMap)) ⟨zeroCache, fun _ => none⟩ faultThenBranch =
      some s ∧
      (s.cache.tbs 0).tcPtr = (s.cache.tbs 1).tcPtr ∧ tbFindPc 4096 s.cache 4106 = some 1 := by
  refine exists_of_map (fun s => ((s.cache.tbs 0).tcPtr, (s.cache.tbs 1).tcPtr, s.code 1))
    (0, 0, some 32)
    (by decide) fun s hs heq => ?_
  simp only [Prod.mk.injEq] at heq
  obtain ⟨h0, h1, hcode⟩ := heq
  refine ⟨h0.trans h1.symm, ?_⟩
  exact (tbFindPc_of_run hs 4096).2 1 32 4106 hcode (by omega) (by omega)

end VariabilityTestbed.Translate
