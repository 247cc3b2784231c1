import VariabilityTestbed.Block.MetadataCache

/-!
# The order of metadata writes

While a cache depends on the other, nothing of it is written before the other is flushed, and a
dependency is dropped only after that. `CacheInv` says this of the log: since a dependency was set,
either it was *settled*, which means that a flush of the file came after writes of all entries that
were dirty then, or the cache still depends and each of these entries was written or is still dirty.

The two caches never depend on each other at the same time, and so the flush that a flush calls
calls no further one. This is what makes the recursion end, and it is part of the same invariant:
without it nothing could be said about the flush inside of a flush.
-/

namespace VariabilityTestbed.Block

open CacheState Runs List Option Function

variable {s s' t : CacheState} {c d : CacheId} {i j o : ℕ}

/-! ### The invariant -/

/-- An entry that has to be written. -/
def CacheState.Pending (s : CacheState) (c : CacheId) (i o : ℕ) : Prop :=
  i < (s.cache c).size ∧ ((s.cache c).entries i).dirty = true ∧
    ((s.cache c).entries i).offset = o ∧ o ≠ 0

/-- The entries were written, and then the file was flushed. -/
def Settled (d : CacheId) (dirty : List (ℕ × ℕ)) (since : List CacheEvent) : Prop :=
  ∃ after before, since = after ++ .flush true :: before ∧
    ∀ x ∈ dirty, .pwrite d x.1 x.2 true ∈ before

/-- The dependency is there, and no entry was lost. -/
def Waiting (s : CacheState) (c d : CacheId) (dirty : List (ℕ × ℕ)) (since : List CacheEvent) :
    Prop :=
  (s.cache c).depends = some d ∧ ∀ x ∈ dirty, .pwrite d x.1 x.2 true ∈ since ∨ s.Pending d x.1 x.2

/-- Nothing of the cache was written before the dependency was settled. -/
def WrittenAfter (c d : CacheId) (dirty : List (ℕ × ℕ)) (since : List CacheEvent) : Prop :=
  ∀ after i o ok before, since = after ++ .pwrite c i o ok :: before → Settled d dirty before

/-- **Dependencies are kept**, and are never mutual. -/
structure CacheInv (s : CacheState) : Prop where
  depends : ∀ c, (s.cache c).depends = none ∨
    (s.cache c).depends = some c.other ∧ (s.cache c.other).depends = none
  ordered : ∀ since c d dirty before, s.log = since ++ .dependency c d dirty :: before →
    (Settled d dirty since ∨ Waiting s c d dirty since) ∧ WrittenAfter c d dirty since

theorem Settled.cons {dirty : List (ℕ × ℕ)} {since : List CacheEvent} (h : Settled d dirty since)
    (e : CacheEvent) : Settled d dirty (e :: since) := by
  obtain ⟨after, before, rfl, hall⟩ := h
  exact ⟨e :: after, before, rfl, hall⟩

theorem WrittenAfter.cons {dirty : List (ℕ × ℕ)} {since : List CacheEvent} {e : CacheEvent}
    (h : WrittenAfter c d dirty since)
    (he : ∀ i o ok, e = .pwrite c i o ok → Settled d dirty since) :
    WrittenAfter c d dirty (e :: since) := by
  intro after i o ok before heq
  cases after with
  | nil =>
    cases heq
    exact he i o ok rfl
  | cons e' after =>
    obtain ⟨-, heq⟩ := List.cons.inj heq
    exact h after i o ok before heq

theorem CacheInv.depends_other (h : CacheInv s) (hc : (s.cache c).depends = some d) :
    d = c.other ∧ (s.cache d).depends = none := by
  rcases h.depends c with hnone | ⟨hother, hnone⟩
  · rw [hnone] at hc
    exact nomatch hc
  · obtain rfl := some.inj (hother.symm.trans hc)
    exact ⟨rfl, hnone⟩

/-! ### Changes of a cache or an entry -/

section Modify

variable {f : Cache → Cache} {g : CachedTable → CachedTable}

theorem CacheId.eq_or_eq_other (c c' : CacheId) : c' = c ∨ c' = c.other := by
  cases c <;> cases c' <;> simp [CacheId.other]

theorem CacheId.other_ne (c : CacheId) : c.other ≠ c := by cases c <;> exact nofun

@[simp] theorem cache_modifyCache_self : (s.modifyCache c f).cache c = f (s.cache c) :=
  update_self ..

theorem cache_modifyCache_of_ne {c' : CacheId} (h : c' ≠ c) :
    (s.modifyCache c f).cache c' = s.cache c' := update_of_ne h ..

/-- A field that a change of a cache leaves alone. -/
theorem proj_modifyCache {α : Type*} (p : Cache → α) (hf : ∀ x, p (f x) = p x) (c' : CacheId) :
    p ((s.modifyCache c f).cache c') = p (s.cache c') := by
  by_cases h : c' = c
  · rw [h, cache_modifyCache_self, hf]
  · rw [cache_modifyCache_of_ne h]

theorem depends_modifyEntry (c' : CacheId) :
    ((s.modifyEntry c i g).cache c').depends = (s.cache c').depends := by
  rw [modifyEntry, proj_modifyCache Cache.depends (by intro; rfl)]

theorem size_modifyEntry (c' : CacheId) :
    ((s.modifyEntry c i g).cache c').size = (s.cache c').size := by
  rw [modifyEntry, proj_modifyCache Cache.size (by intro; rfl)]

/-- Changes of caches that leave the entries alone. -/
theorem pending_modifyCache (hsize : ∀ x, (f x).size = x.size)
    (hentries : ∀ x, (f x).entries = x.entries) (c' : CacheId) :
    (s.modifyCache c f).Pending c' j o ↔ s.Pending c' j o := by
  rw [Pending, Pending, proj_modifyCache Cache.size hsize, proj_modifyCache Cache.entries hentries]

/-- An entry after a change of an entry. -/
theorem pending_modifyEntry (c' : CacheId) :
    (s.modifyEntry c i g).Pending c' j o ↔ if c' = c ∧ j = i then
      i < (s.cache c).size ∧ (g ((s.cache c).entries i)).dirty = true ∧
        (g ((s.cache c).entries i)).offset = o ∧ o ≠ 0
      else s.Pending c' j o := by
  by_cases hc : c' = c
  · subst hc
    rw [Pending, modifyEntry, cache_modifyCache_self]
    by_cases hj : j = i
    · subst hj
      simp only [update_self, and_self, if_true]
    · simp only [update_of_ne hj, hj, and_false, if_false]
      rfl
  · rw [Pending, modifyEntry, cache_modifyCache_of_ne hc, if_neg fun h => hc h.1]
    rfl

end Modify

/-! ### Changes that keep it -/

/-- Changes that write nothing and drop no dirty entry. -/
theorem CacheInv.mono (h : CacheInv s) (hlog : s'.log = s.log)
    (hdepends : ∀ c, (s'.cache c).depends = (s.cache c).depends)
    (hpending : ∀ c i o, s.Pending c i o → s'.Pending c i o) : CacheInv s' where
  depends := by
    intro c
    rw [hdepends, hdepends]
    exact h.depends c
  ordered := by
    intro since c d dirty before heq
    obtain ⟨hstate, hwritten⟩ := h.ordered since c d dirty before (hlog ▸ heq)
    refine ⟨hstate.imp_right ?_, hwritten⟩
    rintro ⟨hdep, hall⟩
    exact ⟨(hdepends c).trans hdep, fun x hx => (hall x hx).imp_right (hpending d x.1 x.2)⟩

/-- Changes of a cache that leave its entries and its dependency alone. -/
theorem CacheInv.modifyCache (h : CacheInv s) {f : Cache → Cache}
    (hsize : ∀ x, (f x).size = x.size) (hentries : ∀ x, (f x).entries = x.entries)
    (hdepends : (f (s.cache c)).depends = (s.cache c).depends) : CacheInv (s.modifyCache c f) := by
  refine h.mono rfl (fun c' => ?_) fun c' j o hp => (pending_modifyCache hsize hentries c').mpr hp
  by_cases hc : c' = c
  · rw [hc, cache_modifyCache_self, hdepends]
  · rw [cache_modifyCache_of_ne hc]

/-- Changes of an entry that leave it dirty if it was. -/
theorem CacheInv.modifyEntry (h : CacheInv s) {g : CachedTable → CachedTable}
    (hg : ∀ o, s.Pending c i o → (g ((s.cache c).entries i)).dirty = true ∧
      (g ((s.cache c).entries i)).offset = o) : CacheInv (s.modifyEntry c i g) := by
  refine h.mono rfl depends_modifyEntry fun c' j o hp => ?_
  rw [pending_modifyEntry]
  split
  next hij =>
    obtain ⟨rfl, rfl⟩ := hij
    exact ⟨hp.1, (hg o hp).1, (hg o hp).2, hp.2.2.2⟩
  next => exact hp

/-- A request to the file. Only a cache without a dependency may write. -/
theorem CacheInv.request (h : CacheInv s) {e : CacheEvent} (hlog : s'.log = e :: s.log)
    (hdepends : ∀ c, (s'.cache c).depends = (s.cache c).depends)
    (hpending : ∀ c i o, s.Pending c i o → s'.Pending c i o ∨ e = .pwrite c i o true)
    (hwrite : ∀ c i o ok, e = .pwrite c i o ok → (s.cache c).depends = none)
    (he : ∀ c d dirty, e ≠ .dependency c d dirty) : CacheInv s' where
  depends := by
    intro c
    rw [hdepends, hdepends]
    exact h.depends c
  ordered := by
    intro since c d dirty before heq
    rw [hlog] at heq
    cases since with
    | nil =>
      cases heq
      exact absurd rfl (he c d dirty)
    | cons e' since =>
      obtain ⟨rfl, htail⟩ := List.cons.inj heq
      obtain ⟨hstate, hwritten⟩ := h.ordered since c d dirty before htail
      refine ⟨?_, hwritten.cons fun i o ok hpwrite => ?_⟩
      · rcases hstate with hsettled | ⟨hdep, hall⟩
        · exact .inl (hsettled.cons e)
        · refine .inr ⟨(hdepends c).trans hdep, fun x hx => ?_⟩
          rcases hall x hx with hmem | hpend
          · exact .inl (mem_cons_of_mem e hmem)
          · rcases hpending d x.1 x.2 hpend with hpend | rfl
            · exact .inr hpend
            · exact .inl (.head _)
      · -- a cache that waits does not write
        rcases hstate with hsettled | ⟨hdep, -⟩
        · exact hsettled
        · rw [hwrite c i o ok hpwrite] at hdep
          exact nomatch hdep

/-- Dropping a dependency, right after a flush of all that it was about. -/
theorem CacheInv.drop (h : CacheInv s) {rest : List CacheEvent}
    (hflush : s.log = .flush true :: rest) (hdone : ∀ j o, ¬ s.Pending d j o)
    (hc : (s.cache c).depends = some d) :
    CacheInv (s.modifyCache c fun x => { x with depends := none, dependsOnFlush := false }) := by
  obtain ⟨rfl, hother⟩ := h.depends_other hc
  have hall : ∀ c', ((s.modifyCache c fun x =>
      { x with depends := none, dependsOnFlush := false }).cache c').depends = none := by
    intro c'
    rcases c.eq_or_eq_other c' with rfl | rfl
    · rw [cache_modifyCache_self]
    · rw [cache_modifyCache_of_ne c.other_ne, hother]
  refine ⟨fun c' => .inl (hall c'), fun since c' d' dirty before heq => ?_⟩
  change s.log = _ at heq
  obtain ⟨hstate, hwritten⟩ := h.ordered since c' d' dirty before heq
  refine ⟨.inl ?_, hwritten⟩
  rcases hstate with hsettled | ⟨hdep, hwait⟩
  · exact hsettled
  -- the flush is the last event, and it settles the dependency
  obtain rfl : c' = c := by
    rcases c.eq_or_eq_other c' with h | rfl
    · exact h
    · rw [hother] at hdep
      exact nomatch hdep
  obtain rfl := some.inj (hdep.symm.trans hc)
  rw [hflush] at heq
  cases since with
  | nil => exact nomatch (List.cons.inj heq).1
  | cons e since =>
    cases heq
    refine ⟨[], since, rfl, fun x hx => ?_⟩
    rcases hwait x hx with hmem | hpend
    · exact (mem_cons.mp hmem).resolve_left nofun
    · exact absurd hpend (hdone x.1 x.2)

theorem cache_setDepends (s : CacheState) (c d : CacheId) : (s.setDepends c d).cache =
    (s.modifyCache c fun x => { x with depends := some d }).cache := rfl

/-- A new dependency. -/
theorem CacheInv.setDepends (h : CacheInv s) (c : CacheId)
    (hother : (s.cache c.other).depends = none) : CacheInv (s.setDepends c c.other) := by
  have hdep : ((s.setDepends c c.other).cache c).depends = some c.other := by
    rw [cache_setDepends, cache_modifyCache_self]
  have hdep' : ((s.setDepends c c.other).cache c.other).depends = none := by
    rw [cache_setDepends, cache_modifyCache_of_ne c.other_ne, hother]
  have hpending : ∀ c' j o, (s.setDepends c c.other).Pending c' j o ↔ s.Pending c' j o := by
    intro c' j o
    rw [Pending, cache_setDepends]
    exact pending_modifyCache (by intro; rfl) (by intro; rfl) c'
  refine ⟨fun c' => ?_, fun since c' d dirty before heq => ?_⟩
  · rcases c.eq_or_eq_other c' with rfl | rfl
    · exact .inr ⟨hdep, hdep'⟩
    · exact .inl hdep'
  change .dependency c c.other (s.dirtyEntries c.other) :: s.log = _ at heq
  cases since with
  | nil =>
    -- the new one: every entry that is dirty now is still dirty
    obtain ⟨heq, -⟩ := List.cons.inj heq
    cases heq
    refine ⟨.inr ⟨hdep, fun x hx => .inr ?_⟩, fun after i o ok before h => ?_⟩
    · rw [hpending]
      obtain ⟨i, hi, rfl⟩ := List.mem_map.mp hx
      obtain ⟨hlt, hdirty⟩ := mem_filter.mp hi
      rw [Bool.and_eq_true, bne_iff_ne] at hdirty
      exact ⟨mem_range.mp hlt, hdirty.1, rfl, hdirty.2⟩
    · exact absurd (congrArg List.length h) (by simp)
  | cons e since =>
    obtain ⟨rfl, htail⟩ := List.cons.inj heq
    obtain ⟨hstate, hwritten⟩ := h.ordered since c' d dirty before htail
    refine ⟨?_, hwritten.cons nofun⟩
    rcases hstate with hsettled | ⟨hold, hwait⟩
    · exact .inl (hsettled.cons _)
    · rcases c.eq_or_eq_other c' with rfl | rfl
      · obtain ⟨rfl, -⟩ := h.depends_other hold
        refine .inr ⟨hdep, fun x hx => ?_⟩
        exact (hwait x hx).imp (mem_cons_of_mem _) (hpending _ _ _).mpr
      · rw [hother] at hold
        exact nomatch hold

/-! ### Flushing -/

/-- Flushing makes entries clean and drops dependencies, and does nothing else to the caches. -/
structure Calm (s s' : CacheState) : Prop where
  size : ∀ c, (s'.cache c).size = (s.cache c).size
  pending : ∀ c i o, s'.Pending c i o → s.Pending c i o
  depends : ∀ c, (s'.cache c).depends = (s.cache c).depends ∨ (s'.cache c).depends = none

theorem Calm.refl (s : CacheState) : Calm s s := ⟨fun _ => rfl, fun _ _ _ h => h, fun _ => .inl rfl⟩

theorem Calm.trans (h : Calm s s') (h' : Calm s' t) : Calm s t where
  size := fun c => (h'.size c).trans (h.size c)
  pending := fun c i o hp => h.pending c i o (h'.pending c i o hp)
  depends := fun c => by
    rcases h'.depends c with heq | hnone
    · rw [heq]
      exact h.depends c
    · exact .inr hnone

/-- Changes of caches that flushing makes. -/
theorem calm_modifyCache {f : Cache → Cache} (hsize : ∀ x, (f x).size = x.size)
    (hentries : ∀ x, (f x).entries = x.entries)
    (hdepends : ∀ x, (f x).depends = x.depends ∨ (f x).depends = none) :
    Calm s (s.modifyCache c f) where
  size := proj_modifyCache Cache.size hsize
  pending := fun c' i o h => (pending_modifyCache hsize hentries c').mp h
  depends := fun c' => by
    by_cases h : c' = c
    · rw [h, cache_modifyCache_self]
      exact hdepends _
    · rw [cache_modifyCache_of_ne h]
      exact .inl rfl

theorem CacheInv.bdrvFlush (h : CacheInv s) : CacheInv s.bdrvFlush.1 :=
  h.request rfl (fun _ => rfl) (fun _ _ _ hp => .inl hp) nofun nofun

theorem calm_bdrvFlush (s : CacheState) : Calm s s.bdrvFlush.1 :=
  ⟨fun _ => rfl, fun _ _ _ h => h, fun _ => .inl rfl⟩

/-- What a function that writes back a cache or an entry is expected to do. -/
structure WroteBack (s : CacheState) (r : CacheState × ℤ) (clean : CacheState → Prop) : Prop where
  inv : CacheInv r.1
  calm : Calm s r.1
  clean : 0 ≤ r.2 → clean r.1

/-- The write of an entry, by a cache without a dependency. -/
theorem CacheInv.writeEntry (h : CacheInv s) (hdepends : (s.cache c).depends = none)
    (i : ℕ) : WroteBack s (s.writeEntry c i) fun s' => ∀ o, ¬ s'.Pending c i o := by
  have hwrite : ∀ c' i' o ok, CacheEvent.pwrite c i ((s.cache c).entries i).offset
      (0 ≤ s.results 0) = .pwrite c' i' o ok → (s.cache c').depends = none := by
    intro c' i' o ok heq
    cases heq
    exact hdepends
  rw [CacheState.writeEntry]
  split
  next hret =>
    refine ⟨h.request rfl (fun _ => rfl) (fun _ _ _ hp => .inl hp) hwrite nofun,
      ⟨fun _ => rfl, fun _ _ _ hp => hp, fun _ => .inl rfl⟩, fun hok => ?_⟩
    exact absurd hret (Int.not_lt.mpr hok)
  next hret =>
    have hok : decide (0 ≤ s.results 0) = true := decide_eq_true (Int.not_lt.mp hret)
    have hclean : ∀ o, ¬ ((s.bdrvPwrite c i).1.modifyEntry c i fun e =>
        { e with dirty := false }).Pending c i o := by
      intro o hp
      rw [pending_modifyEntry, if_pos ⟨rfl, rfl⟩] at hp
      exact nomatch hp.2.1
    have hother : ∀ c' j o, ¬ (c' = c ∧ j = i) → (((s.bdrvPwrite c i).1.modifyEntry c i fun e =>
        { e with dirty := false }).Pending c' j o ↔ s.Pending c' j o) := by
      intro c' j o hne
      rw [pending_modifyEntry, if_neg hne]
      rfl
    have hdep : ∀ c', (((s.bdrvPwrite c i).1.modifyEntry c i fun e =>
        { e with dirty := false }).cache c').depends = (s.cache c').depends := by
      intro c'
      rw [depends_modifyEntry]
      rfl
    refine ⟨h.request (e := .pwrite c i ((s.cache c).entries i).offset (0 ≤ s.results 0)) rfl
      hdep (fun c' j o hp => ?_) hwrite nofun, ⟨?_, ?_, fun c' => .inl (hdep c')⟩,
      fun _ => hclean⟩
    · by_cases hij : c' = c ∧ j = i
      · obtain ⟨rfl, rfl⟩ := hij
        rw [hok, hp.2.2.1]
        exact .inr rfl
      · exact .inl ((hother c' j o hij).mpr hp)
    · intro c'
      rw [size_modifyEntry]
      rfl
    · intro c' j o hp
      by_cases hij : c' = c ∧ j = i
      · obtain ⟨rfl, rfl⟩ := hij
        exact absurd hp (hclean o)
      · exact (hother c' j o hij).mp hp

/-- What `qcow2_cache_flush` does for a cache without a dependency. -/
def FlushesTo (flush : CacheState → CacheId → Option (CacheState × ℤ)) (d : CacheId) : Prop :=
  ∀ s, CacheInv s → (s.cache d).depends = none → ∃ r, flush s d = some r ∧
    WroteBack s r fun s' => (∀ j o, ¬ s'.Pending d j o) ∧ ∃ rest, s'.log = .flush true :: rest

section Flush

variable {flush : CacheState → CacheId → Option (CacheState × ℤ)}

theorem CacheInv.flushDependency (h : CacheInv s) (hc : (s.cache c).depends = some d)
    (hflush : FlushesTo flush d) : ∃ r, s.flushDependency flush c d = some r ∧
      WroteBack s r fun s' => (s'.cache c).depends = none := by
  obtain ⟨-, hd⟩ := h.depends_other hc
  obtain ⟨r, heq, hinv, hcalm, hclean⟩ := hflush s h hd
  refine ⟨_, by rw [CacheState.flushDependency, heq, map_some], ?_⟩
  split
  next hret => exact ⟨hinv, hcalm, fun hok => absurd hret (Int.not_lt.mpr hok)⟩
  next hret =>
    obtain ⟨hdone, rest, hlog⟩ := hclean (Int.not_lt.mp hret)
    have hcalm' : Calm r.1 (r.1.modifyCache c fun x =>
        { x with depends := none, dependsOnFlush := false }) :=
      calm_modifyCache (by intro; rfl) (by intro; rfl) (by intro; exact .inr rfl)
    refine ⟨?_, hcalm.trans hcalm', fun _ => by rw [cache_modifyCache_self]⟩
    rcases hcalm.depends c with hsame | hnone
    · exact hinv.drop hlog hdone (hsame.trans hc)
    · dsimp only
      exact hinv.modifyCache (by intro; rfl) (by intro; rfl) hnone.symm

theorem CacheInv.beforeWrite (h : CacheInv s)
    (hflush : ∀ d, (s.cache c).depends = some d → FlushesTo flush d) :
    ∃ r, s.beforeWrite flush c = some r ∧ WroteBack s r fun s' => (s'.cache c).depends = none := by
  rw [CacheState.beforeWrite]
  cases hc : (s.cache c).depends with
  | some d => exact h.flushDependency hc (hflush d hc)
  | none =>
    simp only
    split
    · refine ⟨_, rfl, ?_⟩
      split
      next hret =>
        exact ⟨h.bdrvFlush, calm_bdrvFlush s, fun _ => hc⟩
      next =>
        have hcalm : Calm s.bdrvFlush.1 (s.bdrvFlush.1.modifyCache c fun x =>
            { x with dependsOnFlush := false }) :=
          calm_modifyCache (by intro; rfl) (by intro; rfl) (by intro; exact .inl rfl)
        refine ⟨?_, (calm_bdrvFlush s).trans hcalm, fun _ => ?_⟩
        · dsimp only
          exact h.bdrvFlush.modifyCache (by intro; rfl) (by intro; rfl) rfl
        · rw [cache_modifyCache_self]
          exact hc
    · exact ⟨_, rfl, h, Calm.refl s, fun _ => hc⟩

/-- **One entry.** -/
theorem CacheInv.entryFlush (h : CacheInv s) (i : ℕ)
    (hflush : ∀ d, (s.cache c).depends = some d → FlushesTo flush d) :
    ∃ r, s.entryFlush flush c i = some r ∧ WroteBack s r fun s' => ∀ o, ¬ s'.Pending c i o := by
  rw [CacheState.entryFlush]
  split
  next hclean =>
    refine ⟨_, rfl, h, Calm.refl s, fun _ o hp => ?_⟩
    obtain ⟨-, hdirty, rfl, hoffset⟩ := hp
    simp only at hdirty hoffset
    simp [hdirty, hoffset] at hclean
  next =>
    obtain ⟨r, heq, hinv, hcalm, hnone⟩ := h.beforeWrite hflush
    refine ⟨_, by rw [heq, map_some], ?_⟩
    split
    next hret => exact ⟨hinv, hcalm, fun hok => absurd hret (Int.not_lt.mpr hok)⟩
    next hret =>
      obtain ⟨hinv', hcalm', hclean⟩ := hinv.writeEntry (hnone (Int.not_lt.mp hret)) i
      exact ⟨hinv', hcalm.trans hcalm', hclean⟩

/-- The loop over the entries. Its result is 0 only if nothing went wrong. -/
theorem CacheInv.flushLoop (is : List ℕ) (result : ℤ) (h : CacheInv s)
    (hflush : ∀ d, (s.cache c).depends = some d → FlushesTo flush d) :
    ∃ r, CacheState.flushLoop flush c is s result = some r ∧ CacheInv r.1 ∧ Calm s r.1 ∧
      (result ≤ 0 → r.2 ≤ 0) ∧ (r.2 = 0 → result = 0 ∧ ∀ i ∈ is, ∀ o, ¬ r.1.Pending c i o) := by
  induction is generalizing s result with
  | nil => exact ⟨_, rfl, h, Calm.refl s, fun hle => hle, fun hzero => ⟨hzero, nofun⟩⟩
  | cons i is ih =>
    obtain ⟨r, heq, hinv, hcalm, hclean⟩ := h.entryFlush i hflush
    have hflush' : ∀ d, (r.1.cache c).depends = some d → FlushesTo flush d := by
      intro d hd
      rcases hcalm.depends c with hsame | hnone
      · exact hflush d (hsame.symm.trans hd)
      · rw [hnone] at hd
        exact nomatch hd
    obtain ⟨r', heq', hinv', hcalm', hle, hdone⟩ := ih
      (if r.2 < 0 ∧ result ≠ enospc then r.2 else result) hinv hflush'
    refine ⟨r', ?_, hinv', hcalm.trans hcalm', fun hneg => hle ?_, fun hzero => ?_⟩
    · rw [CacheState.flushLoop, heq, bind_some, heq']
    · split
      next hlt => omega
      next => exact hneg
    · obtain ⟨hresult, hrest⟩ := hdone hzero
      have hok : 0 ≤ r.2 ∧ result = 0 := by
        split at hresult
        next hneg => omega
        next hneg =>
          refine ⟨?_, hresult⟩
          by_contra hlt
          exact hneg ⟨by omega, by rw [hresult]; decide⟩
      refine ⟨hok.2, fun j hj o hp => ?_⟩
      rcases mem_cons.mp hj with rfl | hj
      · exact hclean hok.1 o (hcalm'.pending c j o hp)
      · exact hrest j hj o hp

end Flush

/-- **A flush** that gets an answer from every flush it calls. -/
theorem CacheInv.cacheFlush_succ (depth : ℕ) (h : CacheInv s)
    (hflush : ∀ d, (s.cache c).depends = some d → FlushesTo (CacheState.cacheFlush depth) d) :
    ∃ r, s.cacheFlush (depth + 1) c = some r ∧
      WroteBack s r fun s' => (∀ j o, ¬ s'.Pending c j o) ∧
      ∃ rest, s'.log = .flush true :: rest := by
  obtain ⟨r, heq, hinv, hcalm, hle, hdone⟩ := h.flushLoop (range (s.cache c).size) 0 hflush
  refine ⟨_, by rw [CacheState.cacheFlush, heq, map_some], ?_⟩
  rw [finishFlush]
  split
  next hzero =>
    refine ⟨hinv.bdrvFlush, hcalm.trans (calm_bdrvFlush r.1), fun hok => ⟨fun j o hp => ?_, ?_⟩⟩
    · refine (hdone hzero).2 j (mem_range.mpr ?_) o hp
      rw [← hcalm.size c]
      exact hp.1
    · have hnonneg : 0 ≤ r.1.results 0 := by
        by_contra hneg
        have hlt : r.1.bdrvFlush.2 < 0 := Int.not_le.mp hneg
        rw [if_pos hlt] at hok
        exact absurd hlt (Int.not_lt.mpr hok)
      exact ⟨r.1.log, by rw [CacheState.bdrvFlush, decide_eq_true hnonneg]; rfl⟩
  next hne =>
    have hle := hle (Int.le_refl 0)
    exact ⟨hinv, hcalm, fun hok => absurd (Int.le_antisymm hle hok) hne⟩

theorem flushesTo_cacheFlush (depth : ℕ) (d : CacheId) :
    FlushesTo (CacheState.cacheFlush (depth + 1)) d := by
  intro s h hd
  refine h.cacheFlush_succ depth fun d' hd' => ?_
  rw [hd] at hd'
  exact nomatch hd'

/-- A flush inside of a flush calls no further one, so two levels are enough. -/
theorem CacheInv.cacheFlush (depth : ℕ) (h : CacheInv s) (c : CacheId) :
    ∃ r, s.cacheFlush (depth + 2) c = some r ∧ CacheInv r.1 := by
  obtain ⟨r, heq, hback⟩ := h.cacheFlush_succ (c := c) (depth + 1) fun d _ =>
    flushesTo_cacheFlush depth d
  exact ⟨r, heq, hback.inv⟩

/-! ### The number of levels does not matter -/

section Depth

variable {flush flush' : CacheState → CacheId → Option (CacheState × ℤ)}

/-- The second flush returns what the first does, where the first returns. -/
def Extends (flush flush' : CacheState → CacheId → Option (CacheState × ℤ)) : Prop :=
  ∀ s c r, flush s c = some r → flush' s c = some r

section

variable {r : CacheState × ℤ} (h : Extends flush flush')
include h

theorem Extends.beforeWrite (heq : s.beforeWrite flush c = some r) :
    s.beforeWrite flush' c = some r := by
  rw [CacheState.beforeWrite] at heq ⊢
  split at heq
  next d hd =>
    obtain ⟨r', hr', hmap⟩ := map_eq_some_iff.mp heq
    rw [CacheState.flushDependency, h _ _ _ hr', map_some, hmap]
  next => exact heq

theorem Extends.entryFlush (heq : s.entryFlush flush c i = some r) :
    s.entryFlush flush' c i = some r := by
  rw [CacheState.entryFlush] at heq ⊢
  split at heq
  next hclean =>
    rw [if_pos hclean]
    exact heq
  next hdirty =>
    obtain ⟨r', hr', hmap⟩ := map_eq_some_iff.mp heq
    rw [if_neg hdirty, h.beforeWrite hr', map_some, hmap]

theorem Extends.flushLoop (is : List ℕ) {result : ℤ}
    (heq : CacheState.flushLoop flush c is s result = some r) :
    CacheState.flushLoop flush' c is s result = some r := by
  induction is generalizing s result with
  | nil => exact heq
  | cons i is ih =>
    obtain ⟨r', hr', hrest⟩ := bind_eq_some_iff.mp heq
    rw [CacheState.flushLoop, h.entryFlush hr', bind_some]
    exact ih hrest

end

end Depth

theorem extends_cacheFlush (depth : ℕ) :
    Extends (CacheState.cacheFlush depth) (CacheState.cacheFlush (depth + 1)) := by
  induction depth with
  | zero => exact nofun
  | succ depth ih =>
    intro s c r heq
    obtain ⟨r', hr', hfinish⟩ := map_eq_some_iff.mp heq
    rw [CacheState.cacheFlush, ih.flushLoop _ hr', map_some, hfinish]

/-- **Every flush returns**, with what it returns at any number of levels from two on. -/
theorem CacheInv.cacheFlush_terminates (h : CacheInv s) (c : CacheId) :
    ∃ r, ∀ depth, 2 ≤ depth → s.cacheFlush depth c = some r := by
  obtain ⟨r, heq, -⟩ := h.cacheFlush 0 c
  refine ⟨r, fun depth hdepth => ?_⟩
  induction depth, hdepth using Nat.le_induction with
  | base => exact heq
  | succ depth _ ih => exact extends_cacheFlush depth _ _ _ ih

/-! ### The other calls -/

section

variable (h : CacheInv s)
include h

theorem CacheInv.entryFlush_inv (depth i : ℕ) (c : CacheId) :
    ∃ r, s.entryFlush (CacheState.cacheFlush (depth + 1)) c i = some r ∧
      WroteBack s r fun s' => ∀ o, ¬ s'.Pending c i o :=
  h.entryFlush i fun d _ => flushesTo_cacheFlush depth d

/-- The same for the flush of one entry, which `get` and `put` call. -/
theorem CacheInv.entryFlush_terminates (c : CacheId) (i : ℕ) :
    ∃ r, ∀ depth, 2 ≤ depth → s.entryFlush (CacheState.cacheFlush depth) c i = some r := by
  obtain ⟨r, heq, -⟩ := h.entryFlush_inv 1 i c
  refine ⟨r, fun depth hdepth => ?_⟩
  induction depth, hdepth using Nat.le_induction with
  | base => exact heq
  | succ depth _ ih => exact (extends_cacheFlush depth).entryFlush ih

theorem CacheInv.dropDependency (depth : ℕ) (c : CacheId) (except : Option CacheId) :
    ∃ r, s.dropDependency (depth + 1) c except = some r ∧
      WroteBack s r fun s' => (s'.cache c).depends = none ∨ (s'.cache c).depends = except := by
  rw [CacheState.dropDependency]
  split
  next d hd =>
    split
    next heq => exact ⟨_, rfl, h, Calm.refl s, fun _ => .inr (hd.trans heq)⟩
    next =>
      obtain ⟨r, heq, hinv, hcalm, hnone⟩ := h.flushDependency hd (flushesTo_cacheFlush depth d)
      exact ⟨r, heq, hinv, hcalm, fun hok => .inl (hnone hok)⟩
  next hnone => exact ⟨_, rfl, h, Calm.refl s, fun _ => .inl hnone⟩

/-- **`qcow2_cache_set_dependency`** first drops the dependency the other way round. -/
theorem CacheInv.setDependency (depth : ℕ) (c : CacheId) {r : CacheState × ℤ}
    (heq : s.setDependency (depth + 1) c c.other = some r) : CacheInv r.1 := by
  obtain ⟨r₁, hr₁, hinv₁, -, hnone⟩ := h.dropDependency depth c.other none
  rw [CacheState.setDependency, hr₁, bind_some] at heq
  split at heq
  next =>
    cases heq
    exact hinv₁
  next hret =>
    obtain ⟨r₂, hr₂, hinv₂, hcalm, -⟩ := hinv₁.dropDependency depth c (some c.other)
    rw [hr₂, map_some] at heq
    cases heq
    split
    next => exact hinv₂
    next =>
      have hother : (r₁.1.cache c.other).depends = none := by
        simpa using hnone (Int.not_lt.mp hret)
      refine hinv₂.setDepends c ?_
      rcases hcalm.depends c.other with hsame | h
      · exact hsame.trans hother
      · exact h

theorem CacheInv.found (c : CacheId) (i : ℕ) : CacheInv (s.found c i) :=
  h.modifyEntry fun _ hp => ⟨hp.2.1, hp.2.2.1⟩

/-- Loading a table into an entry that does not have to be written. -/
theorem CacheInv.load (hclean : ∀ o, ¬ s.Pending c i o) (offset : ℕ) (readFromDisk : Bool) :
    CacheInv (s.load c i offset readFromDisk).1 := by
  have h₁ : CacheInv (s.modifyEntry c i fun e => { e with offset := 0 }) :=
    h.modifyEntry fun o hp => absurd hp (hclean o)
  have hclean₁ : ∀ o, ¬ (s.modifyEntry c i fun e => { e with offset := 0 }).Pending c i o := by
    intro o hp
    rw [pending_modifyEntry, if_pos ⟨rfl, rfl⟩] at hp
    exact hp.2.2.2 hp.2.2.1.symm
  rw [CacheState.load]
  generalize s.modifyEntry c i (fun e => { e with offset := 0 }) = s₁ at h₁ hclean₁
  have h₂ : ∀ r, (if readFromDisk then s₁.request else (s₁, 0)) = r →
      CacheInv r.1 ∧ ∀ o, ¬ r.1.Pending c i o := by
    rintro r rfl
    cases readFromDisk
    · exact ⟨h₁, hclean₁⟩
    · exact ⟨h₁.mono rfl (fun _ => rfl) fun _ _ _ hp => hp, hclean₁⟩
  generalize (if readFromDisk then s₁.request else (s₁, 0)) = r at h₂
  obtain ⟨hinv, hclean₂⟩ := h₂ r rfl
  split
  next => exact hinv
  next => exact (hinv.modifyEntry fun o hp => absurd hp (hclean₂ o)).found c i

theorem CacheInv.doGet (depth : ℕ) {offset : ℕ} {readFromDisk : Bool} {r : CacheState × ℤ}
    (heq : s.doGet (depth + 1) c offset readFromDisk = some r) :
    CacheInv r.1 := by
  rw [CacheState.doGet] at heq
  split at heq
  next i _ =>
    cases heq
    exact h.found c i
  next =>
    obtain ⟨i, -, heq⟩ := bind_eq_some_iff.mp heq
    set entries := (findEntryLoop (range (s.cache c).size) (s.cache c).entries
      (2 ^ 31 - 1) none).1 with hentries
    have h₁ : CacheInv (s.modifyCache c fun x => { x with entries := entries }) := by
      refine h.mono rfl (proj_modifyCache Cache.depends (by intro; rfl)) fun c' j o hp => ?_
      by_cases hc : c' = c
      · subst hc
        obtain ⟨hj, hdirty, hoffset, ho⟩ := hp
        refine ⟨?_, ?_, ?_, ho⟩
        · rw [cache_modifyCache_self]
          exact hj
        · rw [cache_modifyCache_self]
          exact (findEntryLoop_same ..).2.1.trans hdirty
        · rw [cache_modifyCache_self]
          exact (findEntryLoop_same ..).1.trans hoffset
      · rw [Pending, cache_modifyCache_of_ne hc]
        exact hp
    obtain ⟨r', hr', hinv, -, hclean⟩ := h₁.entryFlush_inv depth i c
    rw [hr', map_some] at heq
    cases heq
    split
    next => exact hinv
    next hret => exact hinv.load (hclean (Int.not_lt.mp hret)) offset readFromDisk

theorem CacheInv.cachePut (depth : ℕ) {r : CacheState × ℤ}
    (heq : s.cachePut (depth + 1) c i = some r) : CacheInv r.1 := by
  rw [CacheState.cachePut] at heq
  split at heq
  next =>
    cases heq
    exact h
  split at heq
  next => exact nomatch heq
  next =>
    have h₁ : CacheInv (s.modifyEntry c i fun e => { e with ref := e.ref - 1 }) :=
      h.modifyEntry fun _ hp => ⟨hp.2.1, hp.2.2.1⟩
    simp only at heq
    split at heq
    next =>
      obtain ⟨r', hr', hinv, -⟩ := h₁.entryFlush_inv depth i c
      obtain rfl := some.inj (hr'.symm.trans heq)
      exact hinv
    next =>
      cases heq
      exact h₁

theorem CacheInv.setWritethrough (depth : ℕ) {enable : Bool}
    (heq : s.setWritethrough (depth + 2) c enable = some s') : CacheInv s' := by
  obtain ⟨s₁, hs₁, rfl⟩ := map_eq_some_iff.mp heq
  have h₁ : CacheInv s₁ := by
    split at hs₁
    next =>
      obtain ⟨r, hr, hinv⟩ := h.cacheFlush depth c
      rw [hr] at hs₁
      cases hs₁
      exact hinv
    next =>
      cases hs₁
      exact h
  exact h₁.modifyCache (f := fun x => { x with writethrough := enable }) (by intro; rfl)
    (by intro; rfl) rfl

/-- **One call.** -/
theorem CacheInv.step (depth : ℕ) {op : CacheOp} (heq : cacheStep (depth + 2) s op = some s') :
    CacheInv s' := by
  cases op with
  | get c offset readFromDisk =>
    obtain ⟨r, hr, rfl⟩ := map_eq_some_iff.mp heq
    exact h.doGet (depth + 1) hr
  | put c i =>
    obtain ⟨r, hr, rfl⟩ := map_eq_some_iff.mp heq
    exact h.cachePut (depth + 1) hr
  | markDirty c i =>
    rw [cacheStep, CacheState.markDirty] at heq
    split at heq
    next => exact nomatch heq
    next =>
      cases heq
      exact h.modifyEntry fun _ hp => ⟨rfl, hp.2.2.1⟩
  | flush c =>
    obtain ⟨r, hr, hinv⟩ := h.cacheFlush depth c
    rw [cacheStep, hr] at heq
    cases heq
    exact hinv
  | setDependency c =>
    obtain ⟨r, hr, rfl⟩ := map_eq_some_iff.mp heq
    exact h.setDependency (depth + 1) c hr
  | dependsOnFlush c =>
    cases heq
    exact h.modifyCache (f := fun x => { x with dependsOnFlush := true }) (by intro; rfl)
      (by intro; rfl) rfl
  | setWritethrough c enable => exact h.setWritethrough depth heq

end

theorem cacheInv_init (size : CacheId → ℕ) (writethrough : Bool) (results : ℕ → ℤ) :
    CacheInv (initCacheState size writethrough results) where
  depends := fun _ => .inl rfl
  ordered := fun since c d dirty before heq => absurd (congrArg List.length heq) (by
    simp [initCacheState])

/-! ### Every sequence of calls -/

/-- Since a dependency of `c` on `d` was set, no write of `c` came before the entries of `d` that
were dirty then were written and the file was flushed. -/
def WritesOrdered (log : List CacheEvent) : Prop :=
  ∀ after c i o ok since d dirty before,
    log = after ++ .pwrite c i o ok :: (since ++ .dependency c d dirty :: before) →
      ∃ later earlier, since = later ++ .flush true :: earlier ∧
        ∀ x ∈ dirty, .pwrite d x.1 x.2 true ∈ earlier

theorem CacheInv.writesOrdered (h : CacheInv s) : WritesOrdered s.log := by
  intro after c i o ok since d dirty before heq
  refine (h.ordered (after ++ .pwrite c i o ok :: since) c d dirty before ?_).2 after i
    o ok since rfl
  rw [heq, append_assoc, cons_append]

/-- **The metadata cache.** Whatever requests return: the caches never depend on each other at the
same time, every flush returns, and tables are written in the order of the dependencies. The number
of levels that a flush may call itself is any from two on. -/
theorem metadata_writes_ordered (depth : ℕ) (size : CacheId → ℕ) (writethrough : Bool)
    (results : ℕ → ℤ) (ops : List CacheOp) (s : CacheState)
    (hrun : run (cacheStep (depth + 2)) (initCacheState size writethrough results) ops = some s) :
    ¬ ((s.cache .l2).depends = some .refcount ∧ (s.cache .refcount).depends = some .l2) ∧
      (∀ c, ∃ r, ∀ levels, 2 ≤ levels → s.cacheFlush levels c = some r) ∧
      (∀ c i, ∃ r, ∀ levels, 2 ≤ levels → s.entryFlush (cacheFlush levels) c i = some r) ∧
      WritesOrdered s.log := by
  have h : CacheInv s := run_invariant (P := CacheInv) (fun s op s' h heq => h.step depth heq)
    (cacheInv_init size writethrough results) hrun
  refine ⟨?_, h.cacheFlush_terminates, h.entryFlush_terminates, h.writesOrdered⟩
  rintro ⟨hl2, hrefcount⟩
  rw [(h.depends_other hl2).2] at hrefcount
  exact nomatch hrefcount

/-- An L2 table that waits for a refcount block. -/
theorem l2_table_after_refcount_block : ∃ s, run (cacheStep 2)
    (initCacheState (fun _ => 1) false fun _ => 0)
      [.get .refcount 1024 true, .markDirty .refcount 0, .setDependency .l2, .get .l2 2048 true,
        .markDirty .l2 0, .flush .l2] = some s ∧
    s.log = [.flush true, .pwrite .l2 0 2048 true, .flush true, .pwrite .refcount 0 1024 true,
      .dependency .l2 .refcount [(0, 1024)]] ∧ WritesOrdered s.log := by
  exact exists_of_map CacheState.log _ (by decide +kernel) fun s hrun hlog =>
    ⟨hlog, (metadata_writes_ordered 0 _ _ _ _ s hrun).2.2.2⟩

end VariabilityTestbed.Block
