import VariabilityTestbed.Exec.TbTable

/-!
# The lists of the table are exact

`Indexed` says that the lists of the table are those that they are meant to be: the block `t` is on
the list of `tb_phys_hash` for its physical address if and only if it is live, and on the list of
each page that it has code on. It is stated with `Filed`, so that taking a block out of a list and
putting one in are the two operations of that library, and everything here is about which of them
the code performs.

A block with both of its pages on one physical page is on the list of that page twice. The two
entries are always next to each other, the one for the second page first. Nothing in this file needs
that; the loop over the blocks of a page does.
-/

namespace VariabilityTestbed.Exec

open Chains Function Memory Translate Finset List Option

attribute [local instance] neZero_two

/-! ### The lists of the table -/

theorem hashLayout : Layout HashCell.head HashCell.next where
  head_injective := fun _ _ h => HashCell.head.inj h
  field_injective := fun _ _ h => HashCell.next.inj h
  head_ne_field := nofun

theorem pageLayout : Layout PageCell.first PageCell.next where
  head_injective := fun _ _ h => PageCell.first.inj h
  field_injective := fun _ _ h => PageCell.next.inj h
  head_ne_field := nofun

/-- The list of `tb_phys_hash` that a block belongs to. -/
def TbFields.hash (t : TbFields) : Option ℕ :=
  (t.pageAddr 0).map fun page => tbPhysHashFunc (TbTable.physPc page t.pc)

/-- What is known of the fields of a live block. -/
structure TbFields.Sound (t : TbFields) : Prop where
  first : ∃ page, t.pageAddr 0 = some page
  second : t.pageAddr 1 ≠ none ↔ targetPageSize < pageOffset t.pc + t.size
  size_le : pageOffset t.pc + t.size ≤ targetPageSize + 3

/-- Two pointers to one block are next to each other, the one for the second page first. -/
def Adjacent (l : List PageNode) : Prop :=
  ∀ u, (u, 0) ∈ l → (u, 1) ∈ l → ∃ l₁ l₂, l = l₁ ++ (u, 1) :: (u, 0) :: l₂

namespace Adjacent

variable {l : List PageNode} {t : ℕ}

theorem filter (h : Adjacent l) (t : ℕ) : Adjacent (l.filter (·.1 ≠ t)) := by
  intro u h₀ h₁
  obtain ⟨h₀, hu⟩ := List.mem_filter.mp h₀
  have hu : u ≠ t := of_decide_eq_true hu
  obtain ⟨l₁, l₂, rfl⟩ := h u h₀ (List.mem_filter.mp h₁).1
  exact ⟨l₁.filter (·.1 ≠ t), l₂.filter (·.1 ≠ t), by simp [hu]⟩

theorem cons (h : Adjacent l) {n : Fin 2}
    (ht : (t, 0) ∈ (t, n) :: l → (t, 1) ∈ (t, n) :: l → n = 1 ∧ ∃ m, l = (t, 0) :: m) :
    Adjacent ((t, n) :: l) := by
  intro u h₀ h₁
  by_cases hu : u = t
  · subst hu
    obtain ⟨rfl, m, rfl⟩ := ht h₀ h₁
    exact ⟨[], m, rfl⟩
  · have hne : ∀ i, (u, i) ≠ (t, n) := fun i heq => hu (congrArg Prod.fst heq)
    obtain ⟨l₁, l₂, rfl⟩ := h u ((List.mem_cons.mp h₀).resolve_left (hne 0))
      ((List.mem_cons.mp h₁).resolve_left (hne 1))
    exact ⟨(t, n) :: l₁, l₂, rfl⟩

end Adjacent

namespace TbTable

/-- The list of `tb_phys_hash` that a block is on. -/
def hashKey (s : TbTable) (tb : ℕ) : Option ℕ := if tb ∈ s.live then (s.tbs tb).hash else none

/-- The page whose list a pointer is on. -/
def pageKey (s : TbTable) (x : PageNode) : Option ℕ :=
  if x.1 ∈ s.live then (s.tbs x.1).pageAddr x.2 else none

/-- **The lists of the table are exact.** -/
structure Indexed (s : TbTable) (hashLists : ℕ → List ℕ) (pageLists : ℕ → List PageNode) :
    Prop where
  hash : Filed s.hashCell .head .next s.hashKey hashLists
  page : Filed s.pageCell .first .next s.pageKey pageLists
  adjacent : ∀ p, Adjacent (pageLists p)
  cache : ∀ cpu h t, s.jmpCache cpu h = some t → t ∈ s.live ∧ tbJmpCacheHashFunc (s.tbs t).pc = h
  sound : ∀ t ∈ s.live, (s.tbs t).Sound
  allocated : ∀ t ∈ s.live, t < s.nbTbs
  jumps : AllChained s.jumps

variable {s s' : TbTable} {hashLists : ℕ → List ℕ} {pageLists : ℕ → List PageNode} {t : ℕ}

theorem hashKey_eq_some {h : ℕ} : s.hashKey t = some h ↔ t ∈ s.live ∧ (s.tbs t).hash = some h :=
  ite_none_right_eq_some

theorem pageKey_eq_some {x : PageNode} {p : ℕ} :
    s.pageKey x = some p ↔ x.1 ∈ s.live ∧ (s.tbs x.1).pageAddr x.2 = some p :=
  ite_none_right_eq_some

/-- A list of blocks is shorter than the loops are long. -/
theorem length_lt_bound_of_live {l : List ℕ} (hnodup : l.Nodup) (hl : ∀ t ∈ l, t ∈ s.live) :
    l.length < s.bound := by
  have hcard : l.length ≤ s.live.card := by
    rw [← toFinset_card_of_nodup hnodup]
    exact card_le_card fun t ht => hl t (List.mem_toFinset.mp ht)
  show l.length < 2 * s.live.card + 2
  omega

/-- So is a list of pointers to blocks. -/
theorem length_lt_bound_of_node {l : List PageNode} (hnodup : l.Nodup)
    (hl : ∀ x ∈ l, x.1 ∈ s.live) : l.length < s.bound := by
  have hcard : l.length ≤ (s.live ×ˢ (univ : Finset (Fin 2))).card := by
    rw [← toFinset_card_of_nodup hnodup]
    refine card_le_card fun x hx => Finset.mem_product.mpr ⟨?_, mem_univ _⟩
    exact hl x (List.mem_toFinset.mp hx)
  rw [card_product, card_univ, Fintype.card_fin] at hcard
  show l.length < 2 * s.live.card + 2
  omega

/-! ### Taking a block out of its lists -/

section Remove

variable {key : ℕ → Option ℕ} {lists : ℕ → List ℕ} {h : ℕ}

theorem tbRemove_eq (hf : Filed s.hashCell .head .next key lists)
    (hlen : (lists h).length < s.bound) (hk : key t = some h) :
    ∃ cell, s.tbRemove h t = some { s with hashCell := cell } ∧
      Filed cell .head .next (update key t none) fun j => (lists j).filter (· ≠ t) := by
  obtain ⟨l₁, l₂, hl⟩ := append_of_mem ((hf.mem h t).mpr hk)
  have hchain := hf.chain h
  have hnodup := hf.nodup h
  rw [hl] at hchain hlen hnodup
  have hpass : ∀ u ∈ l₁, (u == t) = false := by
    intro u hu
    rw [beq_eq_false_iff_ne]
    exact fun heq => (nodup_append.mp hnodup).2.2 u hu t (.head _) heq
  have hfuel : l₁.length < s.bound := by
    rw [length_append] at hlen
    omega
  obtain ⟨hseek, hcell⟩ := hchain.seek_found hpass (beq_self_eq_true t) hfuel
  refine ⟨_, ?_, hf.remove hashLayout hl⟩
  simp only [tbRemove, hseek, hcell, bind_eq_bind, bind_some, Option.pure_def]

/-- A block that is on no list is looked for beyond the end. -/
theorem tbRemove_eq_none (hf : Filed s.hashCell .head .next key lists)
    (hlen : (lists h).length < s.bound) (hk : key t = none) : s.tbRemove h t = none := by
  have hchain := hf.chain h
  have hpass : ∀ u ∈ lists h, (u == t) = false := by
    intro u hu
    rw [beq_eq_false_iff_ne]
    rintro rfl
    exact absurd (hk.symm.trans ((hf.mem h u).mp hu)) nofun
  have hseek := hchain.seek_end hpass hlen
  simp only [tbRemove, hseek, hchain.2, bind_eq_bind, bind_some, bind_none]

end Remove

section PageRemove

variable {key : PageNode → Option ℕ} {lists : ℕ → List PageNode} {p : ℕ}

/-- What `tb_page_remove` does: it takes out the first pointer to the block on the list, and changes
no cell but one that held a pointer to the block. -/
theorem tbPageRemove_eq (hf : Filed s.pageCell .first .next key lists)
    (hlen : (lists p).length < s.bound) {n : Fin 2} (hk : key (t, n) = some p) :
    ∃ m cell, key (t, m) = some p ∧ s.tbPageRemove p t = some { s with pageCell := cell } ∧
      Filed cell .first .next (update key (t, m) none)
        (fun j => (lists j).filter (· ≠ (t, m))) ∧
      ∀ k, (∀ i, s.pageCell k ≠ some (t, i)) → cell k = s.pageCell k := by
  have hmem : (t, n) ∈ lists p := (hf.mem p (t, n)).mpr hk
  rcases exists_first (fun x : PageNode => x.1 == t) (lists p) with
    hnone | ⟨l₁, x, l₂, hl, hpass, hx⟩
  · exact absurd (hnone _ hmem) (by simp)
  obtain ⟨u, m⟩ := x
  obtain rfl : u = t := beq_iff_eq.mp hx
  have hkm : key (u, m) = some p := (hf.mem p (u, m)).mp (hl ▸ mem_append_right _ (.head _))
  have hchain := hf.chain p
  rw [hl] at hchain hlen
  have hfuel : l₁.length < s.bound := by
    rw [length_append] at hlen
    omega
  obtain ⟨hseek, hcell⟩ := hchain.seek_found hpass hx hfuel
  refine ⟨m, _, hkm, ?_, hf.remove pageLayout hl, fun k hne => ?_⟩
  · simp only [tbPageRemove, hseek, hcell, bind_eq_bind, bind_some, Option.pure_def]
  · refine update_of_ne (fun heq => hne m ?_) _ _
    rw [heq, hcell]

/-- The pointers to one block, taken out one after the other. -/
theorem filter_pair {i j : Fin 2} (hij : i ≠ j) (l : List PageNode) :
    (l.filter (· ≠ (t, i))).filter (· ≠ (t, j)) = l.filter (·.1 ≠ t) := by
  rw [List.filter_filter]
  refine List.filter_congr fun x _ => ?_
  obtain ⟨u, m⟩ := x
  have hm : m = i ∨ m = j := by omega
  rw [← Bool.decide_and, decide_eq_decide]
  constructor
  · rintro ⟨hj, hi⟩ rfl
    rcases hm with rfl | rfl
    · exact hi rfl
    · exact hj rfl
  · exact fun hu => ⟨fun heq => hu (congrArg Prod.fst heq), fun heq => hu (congrArg Prod.fst heq)⟩

theorem update_pair {i j : Fin 2} (hij : i ≠ j) (key : PageNode → Option ℕ) :
    update (update key (t, i) none) (t, j) none =
      fun x => if x.1 = t then none else key x := by
  funext ⟨u, m⟩
  have hm : m = i ∨ m = j := by omega
  by_cases hu : u = t
  · subst hu
    rcases hm with rfl | rfl
    · rw [update_of_ne (fun heq => hij (congrArg Prod.snd heq)), update_self]
      exact (if_pos rfl).symm
    · rw [update_self]
      exact (if_pos rfl).symm
  · rw [update_of_ne (fun heq => hu (congrArg Prod.fst heq)),
      update_of_ne (fun heq => hu (congrArg Prod.fst heq))]
    exact (if_neg hu).symm

/-- Both removals of `tb_phys_invalidate`. If both pages are the same, then the first removal takes
out the pointer for the second page. -/
theorem tbPageRemoveAt_eq (hf : Filed s.pageCell .first .next key lists)
    (hlen : ∀ p, (lists p).length < s.bound) (hk : ∀ n, key (t, n) = (s.tbs t).pageAddr n)
    (hfirst : ∃ p, (s.tbs t).pageAddr 0 = some p) :
    ∃ cell, ((s.tbPageRemoveAt t 0).bind fun s => s.tbPageRemoveAt t 1) =
        some { s with pageCell := cell } ∧
      Filed cell .first .next (fun x => if x.1 = t then none else key x)
        (fun j => (lists j).filter (·.1 ≠ t)) ∧
      ∀ k, (∀ i, s.pageCell k ≠ some (t, i)) → cell k = s.pageCell k := by
  obtain ⟨p, hp⟩ := hfirst
  obtain ⟨m, cell, hm, hrun, hf', hframe⟩ := tbPageRemove_eq hf (hlen p) ((hk 0).trans hp)
  have hrun : s.tbPageRemoveAt t 0 = some { s with pageCell := cell } := by
    rw [tbPageRemoveAt, hp]
    exact hrun
  rw [hrun, bind_some]
  cases hq : (s.tbs t).pageAddr 1 with
  | none =>
    -- one page only, so the other pointer was never on a list
    have hone : key (t, 1) = none := (hk 1).trans hq
    have hm0 : m = 0 := by
      rcases (by omega : m = 0 ∨ m = 1) with h | rfl
      · exact h
      · exact absurd (hone.symm.trans hm) nofun
    subst hm0
    refine ⟨cell, ?_, ?_, hframe⟩
    · simp only [tbPageRemoveAt, hq]
    · have hkey : update (update key (t, 0) none) (t, 1) none =
          update key (t, 0) none := by
        refine update_eq_self_iff.mpr ?_
        rw [update_of_ne (by simp), hone]
      have hlists : ∀ j, ((lists j).filter (· ≠ (t, 0))).filter (· ≠ (t, 1)) =
          (lists j).filter (· ≠ (t, 0)) := by
        refine fun j => List.filter_eq_self.mpr fun x hx => decide_eq_true ?_
        rintro rfl
        exact absurd (hone.symm.trans ((hf.mem j _).mp (List.mem_filter.mp hx).1)) nofun
      rw [← update_pair (by decide : (0 : Fin 2) ≠ 1), hkey]
      simp only [← filter_pair (by decide : (0 : Fin 2) ≠ 1), hlists]
      exact hf'
  | some q =>
    have hlen' : ((lists q).filter (· ≠ (t, m))).length < s.bound :=
      Nat.lt_of_le_of_lt (length_filter_le _ _) (hlen q)
    have hother : ∃ n, update key (t, m) none (t, n) = some q := by
      rcases (by omega : m = 0 ∨ m = 1) with rfl | rfl
      · refine ⟨1, ?_⟩
        rw [update_of_ne (by simp)]
        exact (hk 1).trans hq
      · refine ⟨0, ?_⟩
        rw [update_of_ne (by simp), hk 0, hp, ← hm, hk 1, hq]
    obtain ⟨n, hn⟩ := hother
    obtain ⟨m', cell', hm', hrun', hf'', hframe'⟩ :=
      tbPageRemove_eq (s := { s with pageCell := cell }) hf' hlen' hn
    have hne : m ≠ m' := by
      rintro rfl
      rw [update_self] at hm'
      cases hm'
    rw [update_pair hne] at hf''
    simp only [filter_pair hne] at hf''
    refine ⟨cell', ?_, hf'', fun k hk => ?_⟩
    · simp only [tbPageRemoveAt, hq]
      exact hrun'
    · have hsame := hframe k hk
      exact (hframe' k fun i heq => hk i (hsame.symm.trans heq)).trans hsame

end PageRemove

/-! ### Invalidation -/

/-- What `tb_phys_invalidate` leaves, apart from the lists. -/
structure Invalidated (s : TbTable) (t : ℕ) (s' : TbTable) : Prop where
  tbs : s'.tbs = s.tbs
  live : s'.live = s.live.erase t
  jumps : Exec.tbPhysInvalidate s.jumps t = some s'.jumps
  frame : ∀ k, (∀ i, s.pageCell k ≠ some (t, i)) → s'.pageCell k = s.pageCell k

theorem Invalidated.hashKey (h : Invalidated s t s') : s'.hashKey = update s.hashKey t none := by
  funext u
  rw [TbTable.hashKey, h.live, h.tbs]
  by_cases hu : u = t
  · subst hu
    rw [if_neg (notMem_erase u _), update_self]
  · rw [update_of_ne hu, TbTable.hashKey]
    simp only [mem_erase, hu, ne_eq, not_false_eq_true, true_and]

theorem Invalidated.pageKey (h : Invalidated s t s') :
    s'.pageKey = fun x => if x.1 = t then none else s.pageKey x := by
  funext x
  rw [TbTable.pageKey, h.live, h.tbs]
  by_cases hx : x.1 = t
  · rw [if_pos hx, if_neg]
    exact hx ▸ notMem_erase x.1 _
  · rw [if_neg hx, TbTable.pageKey]
    simp only [mem_erase, hx, ne_eq, not_false_eq_true, true_and]

namespace Indexed

variable (hs : Indexed s hashLists pageLists)
include hs

theorem mem_hashLists {h : ℕ} : t ∈ hashLists h ↔ t ∈ s.live ∧ (s.tbs t).hash = some h :=
  (hs.hash.mem h t).trans hashKey_eq_some

theorem mem_pageLists {p : ℕ} {x : PageNode} :
    x ∈ pageLists p ↔ x.1 ∈ s.live ∧ (s.tbs x.1).pageAddr x.2 = some p :=
  (hs.page.mem p x).trans pageKey_eq_some

theorem hashLists_length (h : ℕ) : (hashLists h).length < s.bound :=
  length_lt_bound_of_live (hs.hash.nodup h) fun _ ht => (hs.mem_hashLists.mp ht).1

theorem pageLists_length (p : ℕ) : (pageLists p).length < s.bound :=
  length_lt_bound_of_node (hs.page.nodup p) fun _ hx => (hs.mem_pageLists.mp hx).1

/-- **`tb_phys_invalidate` takes a live block out of the table.** -/
theorem tbPhysInvalidate_eq (ht : t ∈ s.live) :
    ∃ s', s.tbPhysInvalidate t = some s' ∧ Invalidated s t s' ∧
      s'.Indexed (fun j => (hashLists j).filter (· ≠ t))
        (fun j => (pageLists j).filter (·.1 ≠ t)) := by
  obtain ⟨page, hpage⟩ := (hs.sound t ht).first
  have hhash : s.hashKey t = some (tbPhysHashFunc (physPc page (s.tbs t).pc)) :=
    hashKey_eq_some.mpr ⟨ht, by rw [TbFields.hash, hpage]; rfl⟩
  obtain ⟨hcell, hrun, hf⟩ := tbRemove_eq hs.hash (hs.hashLists_length _) hhash
  obtain ⟨pcell, hrun', hf', hframe⟩ :=
    tbPageRemoveAt_eq (s := { s with hashCell := hcell }) (t := t) hs.page hs.pageLists_length
      (fun n => if_pos ht) ⟨page, hpage⟩
  obtain ⟨lists, hc⟩ := hs.jumps
  obtain ⟨jumps, lists', hjumps, hlive, hc'⟩ := hc.tbPhysInvalidate_eq ht
  obtain ⟨s₁, hs₁, hs₂⟩ := bind_eq_some_iff.mp hrun'
  have hinv : Invalidated s t { clearJmpCache
      { s with hashCell := hcell, pageCell := pcell } t with jumps := jumps } :=
    ⟨rfl, hlive, hjumps, hframe⟩
  refine ⟨_, ?_, hinv, ?_⟩
  · simp only [tbPhysInvalidate, hpage, hrun, hs₁, hs₂, bind_eq_bind, bind_some]
    show (Exec.tbPhysInvalidate s.jumps t).bind _ = _
    rw [hjumps]
    rfl
  · refine ⟨?_, ?_, fun p => (hs.adjacent p).filter t, fun cpu h u hu => ?_, fun u hu => ?_,
      fun u hu => ?_, lists', hc'⟩
    · rw [hinv.hashKey]
      exact hf
    · rw [hinv.pageKey]
      exact hf'
    · -- an entry for the block itself is cleared, whatever CPU it is of
      simp only [clearJmpCache] at hu
      split at hu
      · cases hu
      next hkeep =>
        obtain ⟨hul, hhu⟩ := hs.cache cpu h u hu
        refine ⟨?_, hhu⟩
        rw [hinv.live, mem_erase]
        refine ⟨?_, hul⟩
        rintro rfl
        exact hkeep ⟨hhu.symm, hu⟩
    · rw [hinv.live] at hu
      exact hs.sound u (Finset.mem_of_mem_erase hu)
    · rw [hinv.live] at hu
      exact hs.allocated u (Finset.mem_of_mem_erase hu)

/-- For a block that is not live, the search in `tb_remove` runs off its list. -/
theorem tbPhysInvalidate_eq_none (ht : t ∉ s.live) : s.tbPhysInvalidate t = none := by
  rw [TbTable.tbPhysInvalidate]
  cases hpage : (s.tbs t).pageAddr 0 with
  | none => rfl
  | some page =>
    have hnone := tbRemove_eq_none hs.hash (hs.hashLists_length
      (tbPhysHashFunc (physPc page (s.tbs t).pc))) (if_neg ht : s.hashKey t = none)
    simp only [hnone, bind_eq_bind, bind_some, bind_none]

/-- So what it was called for was live. -/
theorem of_tbPhysInvalidate (h : s.tbPhysInvalidate t = some s') :
    t ∈ s.live ∧ Invalidated s t s' ∧ s'.Indexed (fun j => (hashLists j).filter (· ≠ t))
      (fun j => (pageLists j).filter (·.1 ≠ t)) := by
  have ht : t ∈ s.live := by
    by_contra ht
    exact absurd ((hs.tbPhysInvalidate_eq_none ht).symm.trans h) nofun
  obtain ⟨s₁, hrun, hinv, hs₁⟩ := hs.tbPhysInvalidate_eq ht
  obtain rfl : s₁ = s' := some.inj (hrun.symm.trans h)
  exact ⟨ht, hinv, hs₁⟩

/-- What the lists do not depend on: blocks that are not live, jumps, and entries of the jump cache
that are lost. -/
theorem congr (hhash : s'.hashCell = s.hashCell) (hpage : s'.pageCell = s.pageCell)
    (hcache : ∀ cpu h t, s'.jmpCache cpu h = some t → s.jmpCache cpu h = some t)
    (htbs : ∀ u ∈ s.live, s'.tbs u = s.tbs u) (hn : ∀ u ∈ s.live, u < s'.nbTbs)
    (hlive : s'.live = s.live) (hjumps : AllChained s'.jumps) :
    s'.Indexed hashLists pageLists := by
  have hhashKey : s'.hashKey = s.hashKey := by
    funext u
    rw [TbTable.hashKey, TbTable.hashKey, hlive]
    exact if_ctx_congr Iff.rfl (fun hu => congrArg TbFields.hash (htbs u hu)) fun _ => rfl
  have hpageKey : s'.pageKey = s.pageKey := by
    funext y
    rw [TbTable.pageKey, TbTable.pageKey, hlive]
    exact if_ctx_congr Iff.rfl (fun hy => congrArg (TbFields.pageAddr · y.2) (htbs y.1 hy)) fun _ =>
      rfl
  refine ⟨?_, ?_, hs.adjacent, fun cpu h u hu => ?_, fun u hu => ?_, fun u hu => ?_, hjumps⟩
  · rw [hhash, hhashKey]
    exact hs.hash
  · rw [hpage, hpageKey]
    exact hs.page
  · obtain ⟨hul, hhu⟩ := hs.cache cpu h u (hcache cpu h u hu)
    rw [hlive, htbs u hul]
    exact ⟨hul, hhu⟩
  · rw [hlive] at hu
    rw [htbs u hu]
    exact hs.sound u hu
  · rw [hlive] at hu
    exact hn u hu

/-- The fields of a block that is not live may change. -/
theorem setDead {x : TbFields} {nbTbs codeGenPtr : ℕ} (ht : t ∉ s.live)
    (hn : ∀ u ∈ s.live, u < nbTbs) :
    Indexed { s.setTb t x with nbTbs := nbTbs, codeGenPtr := codeGenPtr } hashLists pageLists := by
  refine hs.congr rfl rfl (fun _ _ _ => id) (fun u hu => ?_) hn rfl hs.jumps
  exact update_of_ne (fun heq : u = t => ht (heq ▸ hu)) _ _

end Indexed

/-- A table without live blocks, whose lists have no entries. -/
theorem indexed_of_live_eq_empty (hlive : s.live = ∅) (hhash : ∀ h, s.hashCell (.head h) = none)
    (hpage : ∀ p, s.pageCell (.first p) = none) (hcache : ∀ cpu h, s.jmpCache cpu h = none) :
    Indexed s (fun _ => []) fun _ => [] := by
  have hout : ∀ t, t ∉ s.live := fun t ht => absurd (hlive ▸ ht) (notMem_empty t)
  exact ⟨Filed.empty hhash fun t => if_neg (hout t), Filed.empty hpage fun x => if_neg (hout x.1),
    fun _ => nofun, fun cpu h t ht => absurd ((hcache cpu h).symm.trans ht) nofun,
    fun t ht => absurd ht (hout t), fun t ht => absurd ht (hout t),
    allChained_of_live_eq_empty hlive⟩

theorem indexed_of_tbFlush {z : CacheSize} (h : s.tbFlush z = some s') :
    Indexed s' (fun _ => []) fun _ => [] := by
  rw [tbFlush] at h
  split at h
  · cases h
  cases h
  exact indexed_of_live_eq_empty rfl (fun _ => rfl) (fun _ => rfl) fun _ _ => rfl

/-! ### A new block -/

section Link

variable {page : ℕ} {physPage2 : Option ℕ} {hasJump : Fin 2 → Bool} {h : ℕ}

theorem physPc_div (page : ℕ) (pc : UInt32) : physPc page pc / targetPageSize = page := by
  have hlt : pageOffset pc < targetPageSize := Nat.mod_lt _ (by decide)
  rw [physPc, Nat.mul_comm, Nat.mul_add_div (by decide), Nat.div_eq_of_lt hlt, Nat.add_zero]

/-- The fields of a block after it has been linked. -/
def linkedFields (t : TbFields) (page : ℕ) (physPage2 : Option ℕ) : TbFields :=
  { t with pageAddr := fun n => if n = 0 then some page else physPage2 }

theorem tbLinkPage_tbs (s : TbTable) (t page : ℕ) (pc : UInt32) (physPage2 : Option ℕ)
    (hasJump : Fin 2 → Bool) :
    (s.tbLinkPage t (physPc page pc) physPage2 hasJump).tbs =
      update s.tbs t (linkedFields (s.tbs t) page physPage2) := by
  have hpages : ∀ (f : Fin 2 → Option ℕ) (x : Option ℕ),
      update (update f 0 (some page)) 1 x = fun n => if n = 0 then some page else x := by
    intro f x
    funext n
    match n with
    | 0 => rfl
    | 1 => rfl
  cases physPage2 with
  | none | some q =>
    simp only [tbLinkPage, tbAllocPage, setTb, update_self, update_idem, hpages,
      physPc_div, linkedFields]

theorem tbLinkPage_live (s : TbTable) (t physPc : ℕ) (physPage2 : Option ℕ)
    (hasJump : Fin 2 → Bool) :
    (s.tbLinkPage t physPc physPage2 hasJump).live = insert t s.live := by
  cases physPage2 <;> rfl

theorem tbLinkPage_hashCell (s : TbTable) (t physPc : ℕ) (physPage2 : Option ℕ)
    (hasJump : Fin 2 → Bool) :
    (s.tbLinkPage t physPc physPage2 hasJump).hashCell =
      update (update s.hashCell (.next t)
        (s.hashCell (.head (tbPhysHashFunc physPc)))) (.head (tbPhysHashFunc physPc)) (some t) := by
  cases physPage2 <;> rfl

/-- The lists of pages once a block has been linked. -/
def linkedLists (lists : ℕ → List PageNode) (t page : ℕ) (physPage2 : Option ℕ) :
    ℕ → List PageNode :=
  let lists := update lists page ((t, 0) :: lists page)
  match physPage2 with
  | none => lists
  | some q => update lists q ((t, 1) :: lists q)

theorem filed_tbLinkPage {key : PageNode → Option ℕ} {lists : ℕ → List PageNode} {pc : UInt32}
    (hf : Filed s.pageCell .first .next key lists) (hkey : ∀ n, key (t, n) = none) :
    Filed (s.tbLinkPage t (physPc page pc) physPage2 hasJump).pageCell .first .next
      (update (update key (t, 0) (some page)) (t, 1) physPage2)
      (linkedLists lists t page physPage2) := by
  have hfirst := hf.push pageLayout (hkey 0) page
  cases physPage2 with
  | none =>
    have hone : update (update key (t, 0) (some page)) (t, 1) none =
        update key (t, 0) (some page) := by
      refine update_eq_self_iff.mpr ?_
      rw [update_of_ne (by simp), hkey 1]
    rw [hone]
    simp only [tbLinkPage, tbAllocPage, setTb, physPc_div]
    exact hfirst
  | some q =>
    have hone : update key (t, 0) (some page) (t, 1) = none := by
      rw [update_of_ne (by simp), hkey 1]
    have hsecond := hfirst.push pageLayout hone q
    simp only [tbLinkPage, tbAllocPage, setTb, physPc_div]
    exact hsecond

/-- The two pointers to a block are put in one after the other. -/
theorem adjacent_linkedLists {lists : ℕ → List PageNode} (hfresh : ∀ p n, (t, n) ∉ lists p)
    (hadj : ∀ p, Adjacent (lists p)) (p : ℕ) :
    Adjacent (linkedLists lists t page physPage2 p) := by
  have hfirst : ∀ p, Adjacent (update lists page ((t, 0) :: lists page) p) := by
    intro p
    rw [update_apply]
    split
    · refine (hadj page).cons fun _ h₁ =>
        absurd ((List.mem_cons.mp h₁).resolve_left ?_) (hfresh _ _)
      simp
    · exact hadj p
  cases physPage2 with
  | none => exact hfirst p
  | some q =>
    rw [linkedLists, update_apply]
    split
    · refine (hfirst q).cons fun h₀ _ => ⟨rfl, ?_⟩
      have h₀ := (List.mem_cons.mp h₀).resolve_left (by simp)
      rw [update_apply] at h₀ ⊢
      split at h₀
      next hq => exact ⟨_, if_pos hq⟩
      next => exact absurd h₀ (hfresh _ _)
    · exact hfirst p

/-- **`tb_link_page` enters a block into the table.** -/
theorem Indexed.tbLinkPage (hs : Indexed s hashLists pageLists) (ht : t ∉ s.live)
    (halloc : t < s.nbTbs) {pc : UInt32} (hpc : (s.tbs t).pc = pc)
    (hsecond : physPage2 ≠ none ↔ targetPageSize < pageOffset pc + (s.tbs t).size)
    (hsize : pageOffset pc + (s.tbs t).size ≤ targetPageSize + 3) :
    let h := tbPhysHashFunc (physPc page pc)
    (s.tbLinkPage t (physPc page pc) physPage2 hasJump).Indexed
      (update hashLists h (t :: hashLists h)) (linkedLists pageLists t page physPage2) := by
  intro h
  have htbs := tbLinkPage_tbs s t page pc physPage2 hasJump
  have hlive := tbLinkPage_live s t (physPc page pc) physPage2 hasJump
  have hself : (s.tbLinkPage t (physPc page pc) physPage2 hasJump).tbs t =
      linkedFields (s.tbs t) page physPage2 := by
    rw [htbs, update_self]
  have hother : ∀ u, u ≠ t →
      (s.tbLinkPage t (physPc page pc) physPage2 hasJump).tbs u = s.tbs u := by
    intro u hu
    rw [htbs, update_of_ne hu]
  have hkey : ∀ n, s.pageKey (t, n) = none := fun n => if_neg ht
  refine ⟨?_, ?_, adjacent_linkedLists (fun p n hmem => ?_) hs.adjacent, fun cpu k u hu => ?_,
    fun u hu => ?_, fun u hu => ?_, ?_⟩
  · convert hs.hash.push hashLayout (if_neg ht : s.hashKey t = none) h using 1
    · exact tbLinkPage_hashCell ..
    · funext u
      rw [TbTable.hashKey, hlive]
      by_cases hu : u = t
      · subst hu
        rw [if_pos (Finset.mem_insert_self u _), hself, update_self]
        exact congrArg (fun pc => some (tbPhysHashFunc (physPc page pc))) hpc
      · rw [hother u hu, update_of_ne hu, TbTable.hashKey]
        simp only [mem_insert, hu, false_or]
  · convert filed_tbLinkPage hs.page hkey using 1
    funext ⟨u, n⟩
    rw [TbTable.pageKey, hlive]
    by_cases hu : u = t
    · subst hu
      rw [if_pos (Finset.mem_insert_self u _), hself]
      match n with
      | 0 =>
        rw [update_of_ne (by simp), update_self]
        rfl
      | 1 =>
        rw [update_self]
        rfl
    · have hne : ∀ i, (u, n) ≠ (t, i) := fun i heq => hu (congrArg Prod.fst heq)
      rw [hother u hu, update_of_ne (hne 1), update_of_ne (hne 0), TbTable.pageKey]
      simp only [mem_insert, hu, false_or]
  · exact absurd ((hkey n).symm.trans ((hs.page.mem p _).mp hmem)) nofun
  · have hu : s.jmpCache cpu k = some u := by
      cases physPage2 <;> exact hu
    obtain ⟨hul, hhu⟩ := hs.cache cpu k u hu
    rw [hlive, hother u fun heq => ht (heq ▸ hul)]
    exact ⟨Finset.mem_insert_of_mem hul, hhu⟩
  · rw [hlive] at hu
    rcases mem_insert.mp hu with rfl | hul
    · rw [hself]
      refine ⟨⟨page, rfl⟩, ?_, ?_⟩
      · exact hpc ▸ hsecond
      · exact hpc ▸ hsize
    · rw [hother u fun heq => ht (heq ▸ hul)]
      exact hs.sound u hul
  · rw [hlive] at hu
    have hn : (s.tbLinkPage t (physPc page pc) physPage2 hasJump).nbTbs = s.nbTbs := by
      cases physPage2 <;> rfl
    rw [hn]
    rcases mem_insert.mp hu with rfl | hul
    · exact halloc
    · exact hs.allocated u hul
  · have hj : (s.tbLinkPage t (physPc page pc) physPage2 hasJump).jumps =
        Exec.tbLinkPage s.jumps t hasJump := by
      cases physPage2 <;> rfl
    rw [hj]
    exact hs.jumps.tbLinkPage ht hasJump

end Link

/-! ### Generating a block -/

/-- The page of the last byte of a translation. -/
theorem virtPage_last {pc : UInt32} (tr : Translation pc) :
    virtPage (pc + UInt32.ofNat tr.size - 1) =
      if targetPageSize < pageOffset pc + tr.size then virtPageAfter pc else virtPage pc := by
  have hle := tr.size_le
  have hpos := tr.size_pos
  have hpc := pc.toNat_lt
  have hlast : (pc + UInt32.ofNat tr.size - 1).toNat =
      (pc.toNat + tr.size + (2 ^ 32 - 1)) % 2 ^ 32 := by
    simp only [UInt32.toNat_sub, UInt32.toNat_add, UInt32.toNat_ofNat', UInt32.toNat_one]
    omega
  split
  all_goals
    simp only [virtPage, virtPageAfter, pageOffset, targetPageSize, hlast] at *
    omega

/-- Whether there is a second page, and which. -/
theorem virtPage_ne_last_iff {pc : UInt32} (tr : Translation pc) :
    virtPage pc ≠ virtPage (pc + UInt32.ofNat tr.size - 1) ↔
      targetPageSize < pageOffset pc + tr.size := by
  have hpc := pc.toNat_lt
  rw [virtPage_last]
  split
  next h =>
    refine iff_of_true ?_ h
    simp only [virtPage, virtPageAfter, targetPageSize]
    omega
  next h => exact iff_of_false (fun hne => hne rfl) h

/-- What the allocation in `tb_gen_code` leaves. If it flushes the table, then the heads of all
lists are cleared and the fields of the blocks are not. -/
structure Allocated (s : TbTable) (pc : UInt32) (s' : TbTable) (t : ℕ) : Prop where
  notLive : t ∉ s'.live
  lt : t < s'.nbTbs
  pc : (s'.tbs t).pc = pc
  next : ∀ u, s'.hashCell (.next u) = s.hashCell (.next u)
  head : (s'.live = s.live ∧ s'.hashCell = s.hashCell) ∨ ∀ h, s'.hashCell (.head h) = none

variable {z : CacheSize} {map : CodeMap} {pc csBase : UInt32} {flags : UInt64}

theorem Indexed.tbAlloc (hs : Indexed s hashLists pageLists) (h : s.tbAlloc z pc = some (s', t)) :
    s'.Indexed hashLists pageLists ∧ Allocated s pc s' t ∧ s'.live = s.live := by
  rw [TbTable.tbAlloc] at h
  split at h
  · cases h
  cases h
  have hnot : s.nbTbs ∉ s.live := fun hmem => Nat.lt_irrefl _ (hs.allocated _ hmem)
  refine ⟨hs.setDead hnot fun u hu => Nat.lt_succ_of_lt (hs.allocated u hu), ?_, rfl⟩
  refine ⟨hnot, Nat.lt_succ_self _, ?_, fun _ => rfl, .inl ⟨rfl, rfl⟩⟩
  show (update s.tbs s.nbTbs _ s.nbTbs).pc = pc
  rw [update_self]

theorem Indexed.allocTb (hs : Indexed s hashLists pageLists) (h : s.allocTb z pc = some (s', t)) :
    Allocated s pc s' t ∧ ∃ hashLists' pageLists', s'.Indexed hashLists' pageLists' := by
  rw [TbTable.allocTb] at h
  split at h
  next halloc =>
    cases h
    obtain ⟨hs', hall, -⟩ := hs.tbAlloc halloc
    exact ⟨hall, _, _, hs'⟩
  next =>
    obtain ⟨s₁, hflush, h⟩ := bind_eq_some_iff.mp h
    obtain ⟨hs', hall, -⟩ := (indexed_of_tbFlush hflush).tbAlloc h
    rw [tbFlush] at hflush
    split at hflush
    · cases hflush
    cases hflush
    refine ⟨⟨hall.notLive, hall.lt, hall.pc, fun u => hall.next u, .inr fun k => ?_⟩, _, _, hs'⟩
    rcases hall.head with ⟨-, heq⟩ | hnone
    · rw [heq]
    · exact hnone k

/-- The block is the one asked for: live, with the same virtual address, the same state of the CPU
and its code on the pages that the virtual pages are mapped to. It is at the head of its list. -/
structure IsFound (map : CodeMap) (pc csBase : UInt32) (flags : UInt64) (s : TbTable) (tb : ℕ) :
    Prop where
  live : tb ∈ s.live
  pc_eq : (s.tbs tb).pc = pc
  csBase_eq : (s.tbs tb).csBase = csBase
  flags_eq : (s.tbs tb).flags = flags
  page_eq : (s.tbs tb).pageAddr 0 = map (virtPage pc)
  page2_eq : (s.tbs tb).pageAddr 1 =
    if targetPageSize < pageOffset pc + (s.tbs tb).size then map (virtPageAfter pc) else none
  head : ∀ page, map (virtPage pc) = some page →
    s.hashCell (.head (tbPhysHashFunc (physPc page pc))) = some tb

/-- A table in which a new block has been linked. -/
structure Linked (map : CodeMap) (pc csBase : UInt32) (flags : UInt64) (s : TbTable) (t : ℕ)
    (s' : TbTable) : Prop where
  found : IsFound map pc csBase flags s' t
  cells : ∃ s₁ page, Allocated s pc s₁ t ∧ map (virtPage pc) = some page ∧
    s'.hashCell = update (update s₁.hashCell (.next t)
      (s₁.hashCell (.head (tbPhysHashFunc (physPc page pc)))))
      (.head (tbPhysHashFunc (physPc page pc))) (some t)

section GenCode

variable {translation : Option (Translation pc)} {r : Option ℕ}

/-- What `tb_gen_code` does: it writes the fields of the block that it allocated, and links the
block unless there was an exception. -/
theorem tbGenCode_cases (h : s.tbGenCode z map pc csBase flags translation = some (s', r)) :
    (s' = s ∧ r = none) ∨ ∃ page s₁ t fields ptr, map (virtPage pc) = some page ∧
      s.allocTb z pc = some (s₁, t) ∧
      fields.pc = (s₁.tbs t).pc ∧ fields.csBase = csBase ∧ fields.flags = flags ∧
      (s' = { s₁.setTb t fields with codeGenPtr := ptr } ∧ r = none ∨
        ∃ physPage2 hasJump, s' = tbLinkPage { s₁.setTb t fields with codeGenPtr := ptr } t
          (physPc page pc) physPage2 hasJump ∧ r = some t ∧
          (physPage2 = if targetPageSize < pageOffset pc + fields.size then map (virtPageAfter pc)
            else none) ∧ (physPage2 ≠ none ↔ targetPageSize < pageOffset pc + fields.size) ∧
          pageOffset pc + fields.size ≤ targetPageSize + 3) := by
  rw [TbTable.tbGenCode] at h
  split at h
  · cases h
    exact .inl ⟨rfl, rfl⟩
  next page hmap =>
    obtain ⟨⟨s₁, t⟩, halloc, h⟩ := bind_eq_some_iff.mp h
    cases translation with
    | none =>
      cases h
      exact .inr ⟨page, s₁, t,
        { s₁.tbs t with tcPtr := s₁.codeGenPtr, csBase := csBase, flags := flags }, _,
        hmap, halloc, rfl, rfl, rfl, .inl ⟨rfl, rfl⟩⟩
    | some tr =>
      simp only [setTb, update_self, update_idem] at h
      refine .inr ⟨page, s₁, t, ⟨(s₁.tbs t).pc, csBase, flags, tr.size, (s₁.tbs t).pageAddr,
        s₁.codeGenPtr⟩, codeGenAlign (s₁.codeGenPtr + tr.codeGenSize), hmap, halloc,
        rfl, rfl, rfl, ?_⟩
      split at h
      next hsame =>
        cases h
        have hone : ¬ targetPageSize < pageOffset pc + tr.size := fun hlt =>
          (virtPage_ne_last_iff tr).mpr hlt hsame
        exact .inr ⟨none, _, rfl, rfl, (if_neg hone).symm, iff_of_false (· rfl) hone, tr.size_le⟩
      next hne =>
        have htwo : targetPageSize < pageOffset pc + tr.size := (virtPage_ne_last_iff tr).mp hne
        rw [virtPage_last, if_pos htwo] at h
        split at h
        · cases h
          exact .inl ⟨rfl, rfl⟩
        next page2 hpage2 =>
          cases h
          exact .inr ⟨some page2, _, rfl, rfl, ((if_pos htwo).trans hpage2).symm,
            iff_of_true (some_ne_none page2) htwo, tr.size_le⟩

/-- **`tb_gen_code`.** -/
theorem Indexed.tbGenCode (hs : Indexed s hashLists pageLists)
    (h : s.tbGenCode z map pc csBase flags translation = some (s', r)) :
    (∃ hashLists' pageLists', s'.Indexed hashLists' pageLists') ∧
      ∀ t, r = some t → Linked map pc csBase flags s t s' := by
  rcases tbGenCode_cases h with ⟨rfl, rfl⟩ |
    ⟨page, s₁, t, fields, ptr, hmap, halloc, hpc, hcs, hflags, h⟩
  · exact ⟨⟨_, _, hs⟩, nofun⟩
  obtain ⟨hall, hashLists₁, pageLists₁, hs₁⟩ := hs.allocTb halloc
  -- the fields are written while the block is not live yet
  set s₂ : TbTable := { s₁.setTb t fields with codeGenPtr := ptr }
  have hs₂ : s₂.Indexed hashLists₁ pageLists₁ := hs₁.setDead hall.notLive hs₁.allocated
  have htbs : s₂.tbs t = fields := update_self ..
  rcases h with ⟨rfl, rfl⟩ | ⟨physPage2, hasJump, rfl, rfl, hpage2, hsecond, hsize⟩
  · exact ⟨⟨_, _, hs₂⟩, nofun⟩
  have hself : (s₂.tbLinkPage t (physPc page pc) physPage2 hasJump).tbs t =
      linkedFields fields page physPage2 := by
    rw [tbLinkPage_tbs, update_self, htbs]
  refine ⟨⟨_, _, hs₂.tbLinkPage hall.notLive hall.lt (by rw [htbs, hpc, hall.pc]) (htbs ▸ hsecond)
    (htbs ▸ hsize)⟩, fun u hu => ?_⟩
  cases hu
  refine ⟨⟨?_, ?_, ?_, ?_, ?_, ?_, fun page' hpage' => ?_⟩, s₁, page, hall, hmap,
    tbLinkPage_hashCell ..⟩
  · rw [tbLinkPage_live]
    exact Finset.mem_insert_self t _
  · rw [hself]
    exact hpc.trans hall.pc
  · rw [hself]
    exact hcs
  · rw [hself]
    exact hflags
  · rw [hself, hmap]
    rfl
  · rw [hself]
    exact hpage2
  · obtain rfl : page = page' := some.inj (hmap.symm.trans hpage')
    rw [tbLinkPage_hashCell, update_self]

end GenCode

/-! ### Lookup -/

theorem Indexed.setJmpCache (hs : Indexed s hashLists pageLists) (ht : t ∈ s.live)
    (hpc : (s.tbs t).pc = pc) (cpu : ℕ) : (s.setJmpCache cpu pc t).Indexed hashLists pageLists := by
  refine ⟨hs.hash, hs.page, hs.adjacent, fun c h u hu => ?_, hs.sound, hs.allocated, hs.jumps⟩
  change update s.jmpCache cpu _ c h = some u at hu
  by_cases hc : c = cpu
  · subst hc
    rw [update_self] at hu
    by_cases hh : h = tbJmpCacheHashFunc pc
    · rw [hh, update_self] at hu
      cases hu
      exact ⟨ht, hpc ▸ hh.symm⟩
    · rw [update_of_ne hh] at hu
      exact hs.cache c h u hu
  · rw [update_of_ne hc] at hu
    exact hs.cache c h u hu

theorem IsFound.setJmpCache (hfound : IsFound map pc csBase flags s t) (cpu : ℕ) :
    IsFound map pc csBase flags (s.setJmpCache cpu pc t) t :=
  ⟨hfound.live, hfound.pc_eq, hfound.csBase_eq, hfound.flags_eq, hfound.page_eq, hfound.page2_eq,
    hfound.head⟩

theorem moveToFront_tbs (s : TbTable) (ptb1 : HashCell) (h t : ℕ) :
    (s.moveToFront ptb1 h t).tbs = s.tbs := by
  rw [moveToFront]
  split <;> rfl

theorem moveToFront_live (s : TbTable) (ptb1 : HashCell) (h t : ℕ) :
    (s.moveToFront ptb1 h t).live = s.live := by
  rw [moveToFront]
  split <;> rfl

/-- Moving a block to the front is taking it out and putting it in again. -/
theorem Indexed.moveToFront (hs : Indexed s hashLists pageLists) {h : ℕ} {l₁ l₂ : List ℕ}
    (hl : hashLists h = l₁ ++ t :: l₂) :
    (∃ hashLists', (s.moveToFront (lastCell .next (.head h) l₁) h t).Indexed hashLists' pageLists) ∧
      (s.moveToFront (lastCell .next (.head h) l₁) h t).hashCell (.head h) = some t := by
  have hkey : s.hashKey t = some h := (hs.hash.mem h t).mp (hl ▸ mem_append_right _ (.head _))
  have hchain := hs.hash.chain h
  rw [hl, chain_append, Chains.chain_cons] at hchain
  have hsome : s.hashCell (lastCell .next (.head h) l₁) ≠ none := by
    rw [hchain.2.1]
    exact some_ne_none t
  rw [TbTable.moveToFront, if_neg hsome]
  have hremoved := hs.hash.remove hashLayout hl
  have hpushed := hremoved.push hashLayout (update_self ..) h
  have hback : update (update s.hashKey t none) t (some h) = s.hashKey := by
    rw [update_idem, ← hkey, update_eq_self]
  rw [hback] at hpushed
  exact ⟨⟨_, hpushed, hs.page, hs.adjacent, hs.cache, hs.sound, hs.allocated, hs.jumps⟩,
    update_self ..⟩

theorem isWanted_eq_true {physPage1 : ℕ} (hwanted : s.isWanted map pc csBase flags physPage1 t =
    some true) :
    (s.tbs t).pc = pc ∧ (s.tbs t).pageAddr 0 = some physPage1 ∧ (s.tbs t).csBase = csBase ∧
      (s.tbs t).flags = flags ∧
      ((s.tbs t).pageAddr 1 ≠ none → (s.tbs t).pageAddr 1 = map (virtPageAfter pc)) := by
  rw [isWanted] at hwanted
  split at hwanted
  next hall =>
    obtain ⟨hpc, hpage, hcs, hflags⟩ := hall
    refine ⟨hpc, hpage, hcs, hflags, fun hne => ?_⟩
    split at hwanted
    next hnone => exact absurd hnone hne
    next page2 hpage2 =>
      obtain ⟨physPage2, hmap, heq⟩ := map_eq_some_iff.mp hwanted
      rw [hpage2, hmap, beq_iff_eq.mp heq]
  next => cases hwanted

/-- The pointer that the search ended at leads nowhere new after `tb_gen_code`: either it still
holds `NULL`, or it is the head of the list, which holds the new block alone. -/
theorem Linked.moveToFront_eq {page : ℕ} (hlinked : Linked map pc csBase flags s t s')
    (hs : Indexed s hashLists pageLists) (hmap : map (virtPage pc) = some page) :
    let h := tbPhysHashFunc (physPc page pc)
    s'.moveToFront (lastCell .next (.head h) (hashLists h)) h t = s' := by
  intro h
  obtain ⟨s₁, page', hall, hmap', hcell⟩ := hlinked.cells
  obtain rfl : page = page' := some.inj (hmap.symm.trans hmap')
  change s'.hashCell = update (update s₁.hashCell (.next t)
    (s₁.hashCell (.head h))) (.head h) (some t) at hcell
  have hend := (hs.hash.chain h).2
  rcases eq_nil_or_concat (hashLists h) with hnil | ⟨l, last, hl⟩
  · -- the list was empty: taking the new block out and putting it in again changes nothing
    rw [hnil] at hend ⊢
    have hend : s.hashCell (.head h) = none := hend
    have hhead : s₁.hashCell (.head h) = none := by
      rcases hall.head with ⟨-, heq⟩ | hnone
      · rw [heq, hend]
      · exact hnone h
    show s'.moveToFront (.head h) h t = s'
    rw [hhead] at hcell
    have hself : s'.hashCell (.head h) = some t := by rw [hcell, update_self]
    have hnext : s'.hashCell (.next t) = none := by
      rw [hcell, update_of_ne (hashLayout.head_ne_field h t).symm, update_self]
    rw [moveToFront, if_neg (by rw [hself]; exact some_ne_none t), hnext]
    dsimp only
    rw [update_self]
    have hsame : update (update (update s'.hashCell (.head h) none)
        (.next t) none) (.head h) (some t) = s'.hashCell := by
      funext c
      simp only [update_apply]
      split_ifs with h₁ h₂
      · rw [h₁, hself]
      · rw [h₂, hnext]
      · rfl
    rw [hsame]
  · -- the last block of the list ends it still, even if the table was flushed and it is the new one
    have hlast : lastCell HashCell.next (.head h) (hashLists h) = .next last := by
      rw [hl, concat_eq_append, lastCell_append]
      rfl
    rw [hlast] at hend ⊢
    have hnull : s'.hashCell (.next last) = none := by
      rw [hcell, update_of_ne (hashLayout.head_ne_field h last).symm]
      by_cases heq : last = t
      · subst heq
        rw [update_self]
        rcases hall.head with ⟨hlive, -⟩ | hnone
        · refine absurd ?_ hall.notLive
          rw [hlive]
          refine (hs.mem_hashLists (h := h).mp ?_).1
          rw [hl, concat_eq_append]
          exact mem_append_right _ (.head _)
        · exact hnone h
      · rw [update_of_ne fun h => heq (HashCell.next.inj h), hall.next, hend]
    rw [moveToFront, if_pos hnull]

/-- **`tb_find_slow`.** -/
theorem Indexed.tbFindSlow {translation : Option (Translation pc)} {cpu : ℕ} {r : Option ℕ}
    (hs : Indexed s hashLists pageLists)
    (h : s.tbFindSlow z map cpu pc csBase flags translation = some (s', r)) :
    (∃ hashLists' pageLists', s'.Indexed hashLists' pageLists') ∧
      ∀ t, r = some t → IsFound map pc csBase flags s' t := by
  rw [TbTable.tbFindSlow] at h
  cases hmap : map (virtPage pc) with
  | none =>
    rw [hmap] at h
    cases h
    exact ⟨⟨_, _, hs⟩, nofun⟩
  | some page =>
    rw [hmap] at h
    dsimp only at h
    set k := tbPhysHashFunc (physPc page pc)
    have hchain := hs.hash.chain k
    have hlen := hs.hashLists_length k
    rcases exists_first (fun tb => s.isWanted map pc csBase flags page tb != some false)
        (hashLists k) with hnone | ⟨l₁, t, l₂, hl, hpass, ht⟩
    · -- not found
      rw [hchain.seek_end hnone hlen, bind_eq_bind, bind_some, hchain.2] at h
      obtain ⟨⟨s₁, r₁⟩, hgen, h⟩ := bind_eq_some_iff.mp h
      obtain ⟨⟨hashLists', pageLists', hs₁⟩, hlinked⟩ := hs.tbGenCode hgen
      dsimp only at h
      cases r₁ with
      | none =>
        cases h
        exact ⟨⟨_, _, hs₁⟩, nofun⟩
      | some t =>
        have hlinked := hlinked t rfl
        dsimp only at h
        rw [hlinked.moveToFront_eq hs hmap] at h
        cases h
        refine ⟨⟨_, _, hs₁.setJmpCache hlinked.found.live hlinked.found.pc_eq cpu⟩, fun u hu => ?_⟩
        cases hu
        exact hlinked.found.setJmpCache cpu
    · have hchain' := hl ▸ hchain
      have hfuel : l₁.length < s.bound := by
        rw [hl, length_append] at hlen
        omega
      obtain ⟨hseek, hcell⟩ := hchain'.seek_found hpass ht hfuel
      rw [hseek, bind_eq_bind, bind_some, hcell] at h
      dsimp only at h
      split at h
      next =>
        cases h
        exact ⟨⟨_, _, hs⟩, nofun⟩
      next hne =>
        cases h
        have hwanted : s.isWanted map pc csBase flags page t = some true := by
          match hw : s.isWanted map pc csBase flags page t with
          | none => exact absurd hw hne
          | some true => rfl
          | some false =>
            rw [hw] at ht
            cases ht
        obtain ⟨hpc, hpage, hcs, hflags, hpage2⟩ := isWanted_eq_true hwanted
        have htl : t ∈ s.live := (hs.mem_hashLists.mp (hl ▸ mem_append_right _ (.head _))).1
        obtain ⟨⟨hashLists', hs₁⟩, hhead⟩ := hs.moveToFront hl
        have hfound : IsFound map pc csBase flags
            (s.moveToFront (lastCell .next (.head k) l₁) k t) t := by
          refine ⟨?_, ?_, ?_, ?_, ?_, ?_, ?_⟩
          · rw [moveToFront_live]
            exact htl
          · rw [moveToFront_tbs, hpc]
          · rw [moveToFront_tbs, hcs]
          · rw [moveToFront_tbs, hflags]
          · rw [moveToFront_tbs, hpage, hmap]
          · rw [moveToFront_tbs]
            have hsecond := (hs.sound t htl).second
            rw [hpc] at hsecond
            split
            next htwo => exact hpage2 (hsecond.mpr htwo)
            next hone => exact not_ne_iff.mp fun hne => hone (hsecond.mp hne)
          · intro page' hpage'
            obtain rfl : page = page' := some.inj (hmap.symm.trans hpage')
            exact hhead
        refine ⟨⟨_, _, hs₁.setJmpCache hfound.live hfound.pc_eq cpu⟩, fun u hu => ?_⟩
        cases hu
        exact hfound.setJmpCache cpu

end TbTable

end VariabilityTestbed.Exec
