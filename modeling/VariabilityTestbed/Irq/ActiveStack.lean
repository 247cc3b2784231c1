import Mathlib.Data.List.Perm.Subperm
import VariabilityTestbed.Irq.Effects
import VariabilityTestbed.Lib.Runs

/-!
# The interrupts that a CPU is working on

The interrupts that a CPU has acknowledged and not yet completed are on a list: `running_irq` is the
first of them, and `last_active` of each is the one that it has preempted. The field is in an array
by the number of the interrupt, so that an interrupt can be on the list once only. Nothing keeps a
CPU from acknowledging an interrupt that is on its list already, once its priority has been changed;
then the list is a cycle.
-/

namespace VariabilityTestbed.Irq

open Function Gic Runs List Option

variable {g : Config} {s s' : Gic g.ncpu} {c cpu irq r : ℕ} {l : List ℕ}

/-! ### The record -/

/-- A controller, and for each CPU the interrupts that it has acknowledged and not yet completed,
the last one first. -/
structure Tracked (g : Config) where
  gic : Gic g.ncpu
  active : ℕ → List ℕ

/-- A CPU acknowledges an interrupt, if there is one to take. -/
def Tracked.acknowledged (t : Tracked g) (cpu : ℕ) : ℕ → List ℕ :=
  match takes t.gic cpu with
  | none => t.active
  | some irq => update t.active cpu (irq :: t.active cpu)

/-- A CPU completes an interrupt. -/
def Tracked.completed (t : Tracked g) (cpu irq : ℕ) : ℕ → List ℕ :=
  update t.active cpu ((t.active cpu).erase irq)

/-- The record behind an event. -/
def Tracked.note (t : Tracked g) : Event → ℕ → List ℕ
  | .acknowledge cpu => t.acknowledged cpu
  | .nvicAcknowledge => t.acknowledged 0
  | .cpuWrite cpu offset value =>
    if offset = 0x10 then t.completed cpu (value % 0x400) else t.active
  | .nvicComplete irq => t.completed 0 (gicIrq irq)
  | _ => t.active

/-- One event, with the record. -/
def trackedStep (t : Tracked g) (e : Event) : Option (Tracked g) :=
  (step t.gic e).map fun s => ⟨s, t.note e⟩

/-- Reset. -/
def trackedReset (g : Config) : Tracked g := ⟨gicReset g, fun _ => []⟩

/-! ### The list -/

/-- The list that begins with an interrupt and goes on with `last_active`. -/
def Unwinds (g : Config) (lastActive : ℕ → ℕ) : ℕ → List ℕ → Prop
  | r, [] => r = 1023
  | r, irq :: l => r = irq ∧ irq < g.nirq ∧ Unwinds g lastActive (lastActive irq) l

namespace Unwinds

variable {lastActive lastActive' : ℕ → ℕ}

theorem congr (h : Unwinds g lastActive r l) (heq : ∀ irq ∈ l, lastActive' irq = lastActive irq) :
    Unwinds g lastActive' r l := by
  induction l generalizing r with
  | nil => exact h
  | cons irq l ih =>
    obtain ⟨rfl, hlt, hrest⟩ := h
    refine ⟨rfl, hlt, ?_⟩
    rw [heq r mem_cons_self]
    exact ih hrest fun j hj => heq j (mem_cons_of_mem r hj)

theorem lt_of_mem (h : Unwinds g lastActive r l) (hirq : irq ∈ l) : irq < g.nirq := by
  induction l generalizing r with
  | nil => cases hirq
  | cons j l ih =>
    rcases mem_cons.mp hirq with rfl | hirq
    · exact h.2.1
    · exact ih h.2.2 hirq

theorem eq_or_lt (h : Unwinds g lastActive r l) : r = 1023 ∨ r < g.nirq := by
  cases l with
  | nil => exact .inl h
  | cons irq l => exact .inr (h.1 ▸ h.2.1)

theorem eq_nil (h : Unwinds g lastActive 1023 l) : l = [] := by
  cases l with
  | nil => rfl
  | cons irq l =>
    have := g.nirq_le
    have := h.1
    have := h.2.1
    omega

theorem head (h : Unwinds g lastActive r l) : r = l.headD 1023 := by
  cases l with
  | nil => exact h
  | cons irq l => exact h.1

/-- A list without repetitions is no longer than the number of interrupts. -/
theorem length_le (h : Unwinds g lastActive r l) (hnodup : l.Nodup) : l.length ≤ g.nirq := by
  have hsub : l ⊆ range g.nirq := fun irq hirq => mem_range.mpr (h.lt_of_mem hirq)
  have := (subperm_of_subset hnodup hsub).length_le
  rwa [length_range] at this

/-- **The loop of `gic_complete_irq`** ends: at the interrupt above the searched one, or at the
end. -/
theorem searchActive_eq (h : Unwinds g lastActive r (r :: l)) (irq : ℕ) {fuel : ℕ}
    (hfuel : l.length < fuel) :
    (irq ∉ l ∧ searchActive g lastActive irq fuel r = some none) ∨
      ∃ l₁ tmp l₂, r :: l = l₁ ++ tmp :: irq :: l₂ ∧ searchActive g lastActive irq fuel r =
        some (some tmp) := by
  induction l generalizing r fuel with
  | nil =>
    obtain ⟨fuel, rfl⟩ := Nat.exists_eq_add_of_lt hfuel
    have hend : lastActive r = 1023 := h.2.2
    refine .inl ⟨not_mem_nil, ?_⟩
    rw [searchActive, if_neg (Nat.not_le.mpr h.2.1), if_pos hend]
  | cons j l ih =>
    obtain ⟨fuel, rfl⟩ := Nat.exists_eq_succ_of_ne_zero (Nat.ne_zero_of_lt hfuel)
    obtain ⟨-, hr, hj⟩ := h
    have hend : j ≠ 1023 := by
      have := g.nirq_le
      have := hj.2.1
      omega
    rw [searchActive, if_neg (Nat.not_le.mpr hr), hj.1, if_neg hend]
    split_ifs with hirq
    · subst hirq
      exact .inr ⟨[], r, l, rfl, rfl⟩
    · have hj' : Unwinds g lastActive j (j :: l) := ⟨rfl, hj.2⟩
      rcases ih hj' (Nat.lt_of_succ_lt_succ hfuel) with ⟨hnot, heq⟩ | ⟨l₁, tmp, l₂, hl, heq⟩
      · refine .inl ⟨fun hmem => ?_, heq⟩
        rcases mem_cons.mp hmem with rfl | hmem
        · exact hirq rfl
        · exact hnot hmem
      · exact .inr ⟨r :: l₁, tmp, l₂, by rw [hl]; rfl, heq⟩

/-- The assignment behind the loop takes an interrupt out. -/
theorem remove {l₁ l₂ : List ℕ} {tmp : ℕ} (h : Unwinds g lastActive r (l₁ ++ tmp :: irq :: l₂))
    (hnodup : (l₁ ++ tmp :: irq :: l₂).Nodup) :
    Unwinds g (update lastActive tmp (lastActive irq)) r (l₁ ++ tmp :: l₂) := by
  induction l₁ generalizing r with
  | nil =>
    obtain ⟨rfl, hr, -, -, hrest⟩ := h
    refine ⟨rfl, hr, ?_⟩
    rw [update_self]
    refine hrest.congr fun j hj => update_of_ne ?_ ..
    rintro rfl
    exact (nodup_cons.mp hnodup).1 (mem_cons_of_mem irq hj)
  | cons j l₁ ih =>
    obtain ⟨rfl, hr, hrest⟩ := h
    obtain ⟨hnot, hnodup⟩ := nodup_cons.mp hnodup
    refine ⟨rfl, hr, ?_⟩
    rw [update_of_ne fun heq => hnot (by rw [heq]; simp)]
    exact ih hrest hnodup

/-- A new interrupt on top. -/
theorem push (h : Unwinds g lastActive r l) (hirq : irq < g.nirq) (hnot : irq ∉ l) :
    Unwinds g (update lastActive irq r) irq (irq :: l) := by
  refine ⟨rfl, hirq, ?_⟩
  rw [update_self]
  refine h.congr fun j hj => update_of_ne ?_ ..
  rintro rfl
  exact hnot hj

end Unwinds

/-- The interrupts that a CPU is working on are those of a record, each once. -/
structure Stacked (s : Gic g.ncpu) (c : ℕ) (l : List ℕ) : Prop where
  unwinds : Unwinds g (s.lastActive · c) (s.runningIrq c) l
  nodup : l.Nodup

/-- What is in progress at a CPU stays as it is. -/
def SameStack (s s' : Gic g.ncpu) (c : ℕ) : Prop :=
  s'.runningIrq c = s.runningIrq c ∧ ∀ irq, s'.lastActive irq c = s.lastActive irq c

theorem SameStack.trans {s'' : Gic g.ncpu} (h : SameStack s s' c) (h' : SameStack s' s'' c) :
    SameStack s s'' c :=
  ⟨h'.1.trans h.1, fun irq => (h'.2 irq).trans (h.2 irq)⟩

theorem Stacked.congr (h : Stacked s c l) (hsame : SameStack s s' c) : Stacked s' c l := by
  refine ⟨?_, h.nodup⟩
  rw [hsame.1]
  exact h.unwinds.congr fun irq _ => hsame.2 irq

theorem sameStack_gicUpdate (s : Gic g.ncpu) (c : ℕ) : SameStack s (gicUpdate s) c := by
  rw [gicUpdate_sameInputs s]
  exact ⟨rfl, fun _ => rfl⟩

theorem Refreshed.sameStack (h : Refreshed s s') (c : ℕ) : SameStack s s' c := by
  refine h.induction (P := fun s' => SameStack s s' c) ⟨rfl, fun _ => rfl⟩
    fun s₁ s₂ hs₁ hquiet => ?_
  obtain ⟨hrunning, hlast⟩ := sameStack_gicUpdate s₂ c
  refine ⟨?_, fun irq => ?_⟩
  · rw [hrunning, hquiet.runningIrq, hs₁.1]
  · rw [hlast, hquiet.lastActive, hs₁.2]

/-! ### Taking and completing an interrupt -/

/-- A write to `last_active`, seen by a CPU. -/
theorem update_column (a : ℕ → ℕ → ℕ) (irq cpu v c : ℕ) :
    (fun j => update a irq (update (a irq) cpu v) j c) =
      if c = cpu then update (a · c) irq v else (a · c) := by
  funext j
  rcases eq_or_ne j irq with rfl | hj
  · rw [update_self]
    split_ifs with hc
    · rw [hc, update_self, update_self]
    · rw [update_of_ne hc]
  · rw [update_of_ne hj]
    split_ifs with hc
    · rw [update_of_ne hj]
    · rfl

theorem Stacked.setRunningIrq {s₁ : Gic g.ncpu} (h : gicSetRunningIrq s₁ cpu irq = some s')
    (hl : Unwinds g (s₁.lastActive · cpu) irq l) (hnodup : l.Nodup) : Stacked s' cpu l := by
  obtain ⟨-, priority, rfl⟩ := setRunningIrq_eq_some h
  refine Stacked.congr ⟨?_, hnodup⟩ (sameStack_gicUpdate _ cpu)
  dsimp only
  rwa [update_self]

theorem sameStack_setRunningIrq {s₁ : Gic g.ncpu} (h : gicSetRunningIrq s₁ cpu irq = some s')
    (hc : c ≠ cpu) :
    SameStack s₁ s' c := by
  obtain ⟨-, priority, rfl⟩ := setRunningIrq_eq_some h
  obtain ⟨hrunning, hlast⟩ := sameStack_gicUpdate (g := g) { s₁ with
      runningIrq := update s₁.runningIrq cpu irq
      runningPriority := update s₁.runningPriority cpu priority } c
  exact ⟨hrunning.trans (update_of_ne hc ..), hlast⟩

theorem ne_of_takes (htakes : takes s cpu = some irq) : irq ≠ 1023 := by
  rintro rfl
  rw [takes] at htakes
  split_ifs at htakes with hnone
  exact hnone (.inl (some.inj htakes))

/-- **`gic_acknowledge_irq`.** -/
theorem Stacked.acknowledge (h : Stacked s cpu l) (htakes : takes s cpu = some irq) (hnot : irq ∉ l)
    (hack : gicAcknowledgeIrq s cpu = some (s', r)) :
    Stacked s' cpu (irq :: l) ∧ ∀ c ≠ cpu, SameStack s s' c := by
  rw [gicAcknowledgeIrq, htakes] at hack
  obtain ⟨s₁, hrunning, heq⟩ := map_eq_some_iff.mp hack
  cases heq
  have hne := ne_of_takes htakes
  have hirq := (setRunningIrq_eq_some hrunning).1.resolve_left hne
  constructor
  · refine Stacked.setRunningIrq hrunning ?_ (nodup_cons.mpr ⟨hnot, h.nodup⟩)
    show Unwinds g (fun j => update s.lastActive irq _ j cpu) irq (irq :: l)
    rw [update_column, if_pos rfl]
    exact h.unwinds.push hirq hnot
  · intro c hc
    obtain ⟨hrun, hlast⟩ := sameStack_setRunningIrq hrunning hc
    refine ⟨hrun, fun j => (hlast j).trans ?_⟩
    show (fun j => update s.lastActive irq _ j c) j = s.lastActive j c
    rw [update_column, if_neg hc]

/-- `armv7m_nvic_acknowledge_irq`, when it returns. -/
theorem Stacked.nvicAcknowledge {e : ℕ} (h : Stacked s 0 l)
    (hnot : ∀ irq, takes s 0 = some irq → irq ∉ l)
    (hack : armv7mNvicAcknowledgeIrq s = some (s', e)) :
    ∃ irq, irq < g.nirq ∧ e = (if irq ≥ 32 then irq - 16 else irq) ∧ Stacked s' 0 (irq :: l) := by
  obtain ⟨⟨s₁, irq⟩, hack', heq⟩ := bind_eq_some_iff.mp hack
  clear hack
  obtain ⟨hne, heq⟩ := ite_none_left_eq_some.mp heq
  cases heq
  cases htakes : takes s 0 with
  | none =>
    rw [gicAcknowledgeIrq, htakes] at hack'
    exact absurd (Prod.mk.inj (some.inj hack')).2.symm hne
  | some irq' =>
    have hpushed := (h.acknowledge htakes (hnot irq' htakes) hack').1
    obtain rfl : irq' = irq := by
      rw [gicAcknowledgeIrq, htakes] at hack'
      obtain ⟨_, -, heq⟩ := map_eq_some_iff.mp hack'
      exact (Prod.mk.inj heq).2
    exact ⟨irq', hpushed.unwinds.lt_of_mem (.head _), rfl, hpushed⟩

theorem exists_nvicAcknowledge (htakes : takes s 0 = some irq) (hirq : irq < g.nirq) :
    ∃ s' e, armv7mNvicAcknowledgeIrq s = some (s', e) := by
  have hne := ne_of_takes htakes
  rw [armv7mNvicAcknowledgeIrq, gicAcknowledgeIrq, htakes]
  dsimp only
  obtain ⟨s', heq⟩ := exists_setRunningIrq _ 0 (.inr hirq)
  rw [heq, map_some, bind_some]
  exact ⟨s', _, if_neg hne⟩

theorem erase_middle {l₁ l₂ : List ℕ} {tmp : ℕ} (hnodup : (l₁ ++ tmp :: irq :: l₂).Nodup) :
    (l₁ ++ tmp :: irq :: l₂).erase irq = l₁ ++ tmp :: l₂ := by
  obtain ⟨-, hrest, hdisjoint⟩ := nodup_append.mp hnodup
  have hnot : irq ∉ l₁ := fun hmem => hdisjoint irq hmem irq (by simp) rfl
  have hne : tmp ≠ irq := fun heq => (nodup_cons.mp hrest).1 (by simp [heq])
  rw [erase_append_right _ hnot, erase_cons_tail (by simpa using hne), erase_cons_head]

/-- `gic_complete_irq` for an interrupt that is not the running one. -/
theorem Stacked.completeOther (h : Stacked s cpu l) (hrunning : s.runningIrq cpu ≠ 1023)
    (hne : irq ≠ s.runningIrq cpu) :
    ∃ s', completeOther s cpu irq = some s' ∧ Stacked s' cpu (l.erase irq) ∧
    ∀ c ≠ cpu, SameStack s s' c := by
  obtain ⟨hunwinds, hnodup⟩ := h
  cases l with
  | nil => exact absurd hunwinds hrunning
  | cons r l =>
    have hlen := hunwinds.length_le hnodup
    obtain ⟨rfl, hrest⟩ := hunwinds
    have hunwinds : Unwinds g (s.lastActive · cpu) (s.runningIrq cpu) (s.runningIrq cpu :: l) :=
      ⟨rfl, hrest⟩
    rw [length_cons] at hlen
    rw [Irq.completeOther]
    rcases hunwinds.searchActive_eq irq (show l.length < g.nirq + 1 by omega) with
      ⟨hnot, heq⟩ | ⟨l₁, tmp, l₂, hl, heq⟩
    · rw [heq]
      refine ⟨s, rfl, ⟨?_, ?_⟩, fun c _ => ⟨rfl, fun _ => rfl⟩⟩
      · rwa [erase_of_not_mem (not_mem_cons_of_ne_of_not_mem hne hnot)]
      · exact hnodup.erase irq
    · rw [heq]
      have hirq : irq < g.nirq := hunwinds.lt_of_mem (by rw [hl]; simp)
      rw [hl] at hunwinds hnodup ⊢
      refine ⟨_, if_neg (Nat.not_le.mpr hirq), ⟨?_, hnodup.erase irq⟩, fun c hc => ?_⟩
      · rw [erase_middle hnodup]
        show Unwinds g (fun j => update s.lastActive tmp _ j cpu) _ _
        rw [update_column, if_pos rfl]
        exact hunwinds.remove hnodup
      · refine ⟨rfl, fun j => ?_⟩
        show (fun j => update s.lastActive tmp _ j c) j = s.lastActive j c
        rw [update_column, if_neg hc]

/-- **`gic_complete_irq`** returns for each interrupt that exists, and takes it off the list. -/
theorem Stacked.complete (h : Stacked s cpu l)
    (hirq : s.runningIrq cpu = 1023 ∨ irq = 1023 ∨ irq < g.nirq) :
    ∃ s', gicCompleteIrq s cpu irq = some s' ∧ Stacked s' cpu (l.erase irq) ∧
    ∀ c ≠ cpu, SameStack s s' c := by
  rw [gicCompleteIrq]
  by_cases hrunning : s.runningIrq cpu = 1023
  · rw [if_pos hrunning]
    obtain rfl : l = [] := (hrunning ▸ h.unwinds).eq_nil
    exact ⟨s, rfl, h, fun c _ => ⟨rfl, fun _ => rfl⟩⟩
  · rw [if_neg hrunning, if_neg (by omega)]
    dsimp only
    generalize hs₁ :
      (if stillRaised s cpu irq then s.modifyIrq irq (·.setPending (cpuBit g.ncpu cpu)) else s) =
      s₁
    have hsame : ∀ c, SameStack s s₁ c := by
      intro c
      rw [← hs₁]
      split_ifs <;> exact ⟨rfl, fun _ => rfl⟩
    have h₁ := h.congr (hsame cpu)
    rw [← (hsame cpu).1] at hrunning
    by_cases hne : irq ≠ s₁.runningIrq cpu
    · obtain ⟨s₂, heq, hs₂, hother⟩ := h₁.completeOther hrunning hne
      rw [if_pos hne, heq, map_some]
      have hsame₂ : ∀ c, SameStack s₂ (if stillRaised s cpu irq then gicUpdate s₂ else s₂) c := by
        intro c
        split_ifs
        · exact sameStack_gicUpdate s₂ c
        · exact ⟨rfl, fun _ => rfl⟩
      exact ⟨_, rfl, hs₂.congr (hsame₂ cpu), fun c hc =>
        ((hsame c).trans (hother c hc)).trans (hsame₂ c)⟩
    · rw [not_not] at hne
      obtain ⟨hunwinds, hnodup⟩ := h₁
      cases l with
      | nil => exact absurd hunwinds hrunning
      | cons j l =>
        obtain ⟨hj, hlt, hrest⟩ := hunwinds
        rw [← hj] at hlt hrest
        rw [if_neg (not_not.mpr hne), if_neg (hne ▸ Nat.not_le.mpr hlt)]
        obtain ⟨s₂, heq⟩ := exists_setRunningIrq s₁ cpu hrest.eq_or_lt
        refine ⟨s₂, heq, ?_, fun c hc => (hsame c).trans (sameStack_setRunningIrq heq hc)⟩
        rw [hne, hj, erase_cons_head]
        exact Stacked.setRunningIrq heq hrest (nodup_cons.mp hnodup).2

/-- An interrupt that does not exist is out of range. -/
theorem exists_of_completeIrq (h : gicCompleteIrq s cpu irq = some s') :
    s.runningIrq cpu = 1023 ∨ irq = 1023 ∨ irq < g.nirq := by
  by_contra hnot
  rw [gicCompleteIrq, if_neg (by omega), if_pos (by omega)] at h
  exact nomatch h

/-! ### Every run -/

/-- The invariant. -/
def Tracked.Inv (t : Tracked g) : Prop := ∀ c, Stacked t.gic c (t.active c)

/-- **A CPU does not take an interrupt that it is working on.** -/
def Nests (t : Tracked g) : Event → Prop
  | .acknowledge cpu => ∀ irq ∈ takes t.gic cpu, irq ∉ t.active cpu
  | .nvicAcknowledge => ∀ irq ∈ takes t.gic 0, irq ∉ t.active 0
  | _ => True

instance (t : Tracked g) (e : Event) : Decidable (Nests t e) :=
  match e with
  | .acknowledge cpu => inferInstanceAs (Decidable (∀ irq ∈ takes t.gic cpu, _))
  | .nvicAcknowledge => inferInstanceAs (Decidable (∀ irq ∈ takes t.gic 0, _))
  | .setIrq .. | .setPendingPrivate .. | .distWriteb .. | .distWritew ..
  | .distWritel .. | .cpuWrite ..
  | .nvicSetPending .. | .nvicComplete .. => .isTrue trivial

/-- A CPU acknowledges. -/
theorem Tracked.Inv.acknowledge {t : Tracked g} (h : t.Inv)
    (hnests : ∀ irq ∈ takes t.gic cpu, irq ∉ t.active cpu)
    (hack : gicAcknowledgeIrq t.gic cpu = some (s', r)) : Tracked.Inv ⟨s', t.acknowledged cpu⟩ := by
  intro c
  show Stacked s' c (t.acknowledged cpu c)
  rw [Tracked.acknowledged]
  cases htakes : takes t.gic cpu with
  | none =>
    rw [gicAcknowledgeIrq, htakes] at hack
    exact (Prod.mk.inj (some.inj hack)).1 ▸ h c
  | some irq =>
    obtain ⟨hpushed, hother⟩ := (h cpu).acknowledge htakes (hnests irq htakes) hack
    dsimp only
    rcases eq_or_ne c cpu with rfl | hc
    · rwa [update_self]
    · rw [update_of_ne hc]
      exact (h c).congr (hother c hc)

/-- A CPU completes. -/
theorem Tracked.Inv.complete {t : Tracked g} (h : t.Inv)
    (hcomplete : gicCompleteIrq t.gic cpu irq = some s') :
    Tracked.Inv ⟨s', t.completed cpu irq⟩ := by
  obtain ⟨s₁, heq, herased, hother⟩ := (h cpu).complete (exists_of_completeIrq hcomplete)
  obtain rfl := some.inj (heq.symm.trans hcomplete)
  intro c
  show Stacked s₁ c (update t.active cpu _ c)
  rcases eq_or_ne c cpu with rfl | hc
  · rwa [update_self]
  · rw [update_of_ne hc]
    exact (h c).congr (hother c hc)

theorem Tracked.note_of_not_atCpu (t : Tracked g) {e : Event} (he : e.atCpu = false) :
    t.note e = t.active := by
  cases e with
  | acknowledge | nvicAcknowledge | nvicComplete => exact nomatch he
  | cpuWrite cpu offset value => exact if_neg (by simpa [Event.atCpu] using he)
  | _ => rfl

/-- The events by which interrupts are neither taken nor completed. -/
theorem sameStack_of_not_atCpu {e : Event} (hat : e.atCpu = false)
    (h : step s e = some s') (c : ℕ) :
    SameStack s s' c := by
  cases effect_of_step h with
  | refreshed _ h => exact h.sameStack c
  | distControl cpu value he hnvic h =>
    obtain ⟨hrunning, hlast⟩ := h.sameStack c
    obtain ⟨hrunning₁, hlast₁⟩ := sameStack_gicUpdate { s with enabled := value.testBit 0 } c
    exact ⟨hrunning.trans hrunning₁, fun irq => (hlast irq).trans (hlast₁ irq)⟩
  | cpuControl cpu value | priorityMask cpu value => exact sameStack_gicUpdate _ c
  | handlerControl cpu value hnvic => exact ⟨rfl, fun _ => rfl⟩
  | acknowledge | complete | nvicAcknowledge | nvicComplete => exact nomatch hat

theorem Tracked.Inv.step {t t' : Tracked g} {e : Event} (h : t.Inv) (he : Nests t e)
    (hstep : trackedStep t e = some t') : t'.Inv := by
  obtain ⟨s', hs', rfl⟩ := map_eq_some_iff.mp hstep
  cases hat : e.atCpu with
  | false =>
    intro c
    rw [t.note_of_not_atCpu hat]
    exact (h c).congr (sameStack_of_not_atCpu hat hs' c)
  | true =>
    cases effect_of_step hs' with
    | acknowledge cpu hcpu irq hack | nvicAcknowledge hcpu irq hack => exact h.acknowledge he hack
    | complete cpu value hcpu hcomplete => exact h.complete hcomplete
    | nvicComplete irq hcpu hcomplete => exact h.complete hcomplete
    | refreshed hnot _ => exact nomatch hat.symm.trans hnot
    | distControl cpu value he _ _ => rcases he with rfl | rfl | rfl <;> exact nomatch hat
    | cpuControl | priorityMask | handlerControl => exact nomatch hat

theorem inv_trackedReset (g : Config) : (trackedReset g).Inv := fun _ => ⟨rfl, nodup_nil⟩

/-- **Nested interrupts unwind.** In every run in which no CPU takes an interrupt that it is working
on, after each event and for each CPU: the list that begins with `running_irq` and goes on with
`last_active` ends with 1023, has no repetitions, and has the interrupts that the CPU has
acknowledged and not yet completed; `gic_complete_irq` returns for each interrupt that exists and
for 1023; and if it is called for the running interrupt, then the one below it is running again. -/
theorem interrupts_unwind (g : Config) (es : List Event)
    (hes : Along trackedStep Nests (trackedReset g) es) :
    ∀ p t, p <+: es → run trackedStep (trackedReset g) p = some t → ∀ c,
      Unwinds g (t.gic.lastActive · c) (t.gic.runningIrq c) (t.active c) ∧ (t.active c).Nodup ∧
      ∀ irq, (irq < g.nirq ∨ irq = 1023) → ∃ s', gicCompleteIrq t.gic c irq = some s' ∧
        ∀ l, t.active c = irq :: l → s'.runningIrq c = l.headD 1023 := by
  intro p t hp ht c
  have hinv : t.Inv :=
    hes.forall_prefix (P := Tracked.Inv) (fun _ _ _ h he hstep => h.step he hstep)
    (inv_trackedReset g) p t hp ht
  refine ⟨(hinv c).unwinds, (hinv c).nodup, fun irq hirq => ?_⟩
  obtain ⟨s', heq, hs', -⟩ := (hinv c).complete (.inr hirq.symm)
  refine ⟨s', heq, fun l hl => ?_⟩
  rw [hl, erase_cons_head] at hs'
  exact hs'.unwinds.head

/-- Both interfaces are enabled, and software interrupt 0 has priority `0x10`; the first CPU takes
it. -/
def takeInterrupt : List Event :=
  [.cpuWrite 0 0 1, .cpuWrite 1 0 1, .distWriteb 0 0 1, .distWriteb 0 0x400 0x10,
    .distWritel 0 0xf00 0x10000, .acknowledge 0]

/-- The interrupt gets a better priority and becomes pending again, so that the CPU takes it again:
the list is a cycle, and completing another interrupt does not return. And an interrupt that does
not exist is out of range. -/
theorem interrupt_taken_twice :
    (∃ t, run trackedStep (trackedReset twoCpus)
        (takeInterrupt ++ [.distWriteb 0 0x400 0, .distWritel 0 0xf00 0x10000, .acknowledge 0]) =
          some t ∧
      t.active 0 = [0, 0] ∧ t.gic.runningIrq 0 = 0 ∧ t.gic.lastActive 0 0 = 0 ∧
      (gicCompleteIrq t.gic 0 1).isNone = true) ∧
    ∃ t, run trackedStep (trackedReset twoCpus) takeInterrupt = some t ∧
      (gicCompleteIrq t.gic 0 1022).isNone = true := by
  constructor
  · refine exists_of_map (fun t =>
      (t.active 0, t.gic.runningIrq 0, t.gic.lastActive 0 0, (gicCompleteIrq t.gic 0 1).isNone))
      ([0, 0], 0, 0, true)
      (by decide +kernel) fun t _ heq => ?_
    simpa only [Prod.mk.injEq] using heq
  · exact exists_of_map (fun t => (gicCompleteIrq t.gic 0 1022).isNone) true (by decide +kernel)
      fun _ _ heq => heq

/-- Software interrupt 1 preempts software interrupt 0. -/
theorem interrupt_nested :
    ∃ t, run trackedStep (trackedReset twoCpus)
      (takeInterrupt ++ [.distWritel 0 0xf00 0x10001, .acknowledge 0]) =
        some t ∧
      t.active 0 = [1, 0] ∧ ∃ s', gicCompleteIrq t.gic 0 1 = some s' ∧ s'.runningIrq 0 = 0 := by
  refine exists_of_map (·.active 0) [1, 0] (by decide +kernel) fun t ht hactive => ?_
  obtain ⟨-, -, hcomplete⟩ := interrupts_unwind twoCpus _ (by decide +kernel) _ t prefix_rfl ht 0
  obtain ⟨s', heq, hbelow⟩ := hcomplete 1 (.inl (by decide))
  exact ⟨hactive, s', heq, hbelow [0] hactive⟩

end VariabilityTestbed.Irq
