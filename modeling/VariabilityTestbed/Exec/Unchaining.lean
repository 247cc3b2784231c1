import VariabilityTestbed.Exec.Chaining

/-!
# What unchaining leaves

`tb_reset_jump_recursive` is called for the block that the CPU has entered, when the CPU has to be
stopped. From that block control may have passed on along patched jumps to any block that can be
reached, and none of these may go on to another block. The recursion takes the edges of the graph
away while it follows them. It returns on every graph, since each call takes an edge away before the
next one is made, and it leaves no edge of a block that could be reached.

The block that was entered may be invalidated while the CPU runs. It is off the lists then, but its
own native jumps are as they were, and so the recursion ends before it has begun.
-/

namespace VariabilityTestbed.Exec

open Rings Unlinking

variable {s s' : JmpState} {t : ℕ} {fuel : ℕ}

theorem tbResetJumpRecursive2_mono {r r' : JmpState → ℕ → Option JmpState} {n : Fin 2}
    (hr : ∀ s t s', r s t = some s' → r' s t = some s')
    (h : tbResetJumpRecursive2 r s t n = some s') :
    tbResetJumpRecursive2 r' s t n = some s' := by
  rw [tbResetJumpRecursive2] at h ⊢
  cases hcell : s.cell (.next t n) with
  | none =>
    rw [hcell] at h
    exact h
  | some tb1 =>
    simp only [hcell, Option.bind_eq_bind, Option.bind_eq_some_iff] at h ⊢
    obtain ⟨tbNext, hhead, p, hpred, h⟩ := h
    exact ⟨tbNext, hhead, p, hpred, hr _ _ _ h⟩

/-- A recursion that has returned returns the same with more fuel. -/
theorem tbResetJumpRecursive_mono {fuel' : ℕ} (hle : fuel ≤ fuel')
    (h : tbResetJumpRecursive fuel s t = some s') :
    tbResetJumpRecursive fuel' s t = some s' := by
  induction fuel generalizing fuel' s t s' with
  | zero => cases h
  | succ fuel ih =>
    obtain ⟨fuel', rfl⟩ : ∃ k, fuel' = k + 1 := ⟨fuel' - 1, by omega⟩
    have hr : ∀ s t s', tbResetJumpRecursive fuel s t = some s' →
        tbResetJumpRecursive fuel' s t = some s' :=
      fun s t s' => ih (by omega)
    rw [tbResetJumpRecursive, Option.bind_eq_some_iff] at h ⊢
    obtain ⟨s₀, h₀, h₁⟩ := h
    exact ⟨s₀, tbResetJumpRecursive2_mono hr h₀, tbResetJumpRecursive2_mono hr h₁⟩

/-- Block `u` can be reached from `t` along patched jumps. -/
abbrev ReachesFrom (s : JmpState) (t u : ℕ) : Prop := Reach Target.block s.target t u

/-- **Unchaining.** In every state that can be reached `tb_reset_jump_recursive` returns, the lists
are exact then, and the jumps of blocks that cannot be reached from the block are as before. No
block that could be reached from it has a patched jump left exactly if the block is live or has no
patched jump itself. -/
theorem unchained_of_run {cell : JmpLink → Option JmpLink} {target : ℕ → Fin 2 → Target}
    {ops : List JmpOp} (h : Runs.run jmpStep (initJmpState cell target) ops = some s)
    (ht : JmpOp.Enabled s (.tbResetJumpRecursive t)) :
    ∃ s', (∀ fuel, s.bound ≤ fuel → tbResetJumpRecursive fuel s t = some s') ∧
      s'.live = s.live ∧ ListsExact s' s'.live ∧
      (∀ u, ¬ReachesFrom s t u → ∀ n, s'.target u n = s.target u n) ∧
      ((∀ u, ReachesFrom s t u → ∀ n b, s'.target u n ≠ .code b) ↔
        t ∈ s.live ∨ ∀ n b, s.target t n ≠ .code b) := by
  have hs := allChained_of_run h
  by_cases hlive : t ∈ s.live
  · obtain ⟨s', hrun, hunchained, hempty⟩ := unchained_recursive hs hlive (edgeCount_lt_bound s)
    refine ⟨s', fun fuel hfuel => tbResetJumpRecursive_mono hfuel hrun, hunchained.live,
      hunchained.chained.listsExact, fun u hu n => hunchained.cleared.eq_of_not_reach hu n,
      iff_of_true (fun u hu n b hb => ?_) (.inl hlive)⟩
    have hnone := hunchained.cleared.none_of_reach hempty hu n
    rw [hb] at hnone
    cases hnone
  · have hnull := ht.resolve_left hlive
    refine ⟨s, fun fuel hfuel => ?_, rfl, hs.listsExact, fun _ _ _ => rfl, fun hall =>
      .inr (hall t .refl),
      fun hnot u hu => ?_⟩
    · obtain ⟨k, rfl⟩ : ∃ k, fuel = k + 1 := ⟨fuel - 1, by rw [JmpState.bound] at hfuel; omega⟩
      exact tbResetJumpRecursive_of_null hnull k
    · -- nothing else can be reached
      have hnone := hnot.resolve_left hlive
      rcases hu.cases_head with rfl | ⟨v, ⟨n, hv⟩, -⟩
      · exact hnone
      · exact absurd (Target.block_eq_some.mp hv) (hnone n v)

/-- Block 0 jumps to block 1, which jumps to itself and back to block 0. Nothing of this is left. -/
theorem unchained_cycle :
    ∃ s s', runOfTwo [.tbAddJump 0 0 1, .tbAddJump 1 0 1, .tbAddJump 1 1 0] = some s ∧
      tbResetJumpRecursive s.bound s 0 = some s' ∧ ∀ n b, s'.target 0 n ≠ .code b ∧
      s'.target 1 n ≠ .code b := by
  simp only [exists_and_left]
  refine Runs.exists_of_map (fun s => (s.live, s.target 0 0)) ({0, 1}, .code 1) (by decide)
    fun s hs heq => ?_
  obtain ⟨hlive, htarget⟩ := Prod.mk.inj heq
  have h0 : 0 ∈ s.live := hlive ▸ by decide
  obtain ⟨s', hrun, -, -, -, hiff⟩ := unchained_of_run hs (t := 0) (.inl h0)
  have hgone := hiff.mpr (.inl h0)
  have hreach : ReachesFrom s 0 1 := .single ⟨0, by rw [htarget]; rfl⟩
  exact ⟨s', hrun _ le_rfl, fun n b => ⟨hgone 0 .refl n b, hgone 1 hreach n b⟩⟩

/-- Block 0 jumps to block 1, which jumps to itself. Block 0 is invalidated while it is entered. It
has no field left that the recursion could follow, and the jumps of both blocks stay. -/
theorem invalidated_block_keeps_chain :
    ∃ s, runOfTwo [.tbAddJump 0 0 1, .tbAddJump 1 0 1, .tbPhysInvalidate 0] = some s ∧
      JmpOp.Enabled s (.tbResetJumpRecursive 0) ∧ tbResetJumpRecursive s.bound s 0 = some s ∧
      ReachesFrom s 0 1 ∧ s.target 0 0 = .code 1 ∧ s.target 1 0 = .code 1 := by
  refine Runs.exists_of_map
    (fun s => (s.cell (.next 0 0), s.cell (.next 0 1), s.target 0 0, s.target 1 0))
    (none, none, .code 1, .code 1) (by decide) fun s hs heq => ?_
  simp only [Prod.mk.injEq] at heq
  obtain ⟨h₀, h₁, ht₀, ht₁⟩ := heq
  have hnull : ∀ n, s.cell (.next 0 n) = none := by
    intro n
    match n with
    | 0 => exact h₀
    | 1 => exact h₁
  refine ⟨.inr hnull, tbResetJumpRecursive_of_null hnull _, .single ⟨0, ?_⟩, ht₀, ht₁⟩
  rw [ht₀]
  rfl

end VariabilityTestbed.Exec
