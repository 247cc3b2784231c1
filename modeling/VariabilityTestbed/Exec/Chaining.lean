import Mathlib.Data.Finset.Prod
import Mathlib.Data.Fintype.Card
import VariabilityTestbed.Exec.JmpLists
import VariabilityTestbed.Lib.Unlinking

/-!
# The lists of jumps are exact

What the lists are for is a graph: from each live block up to two edges, one for each of its jumps
that is patched, to the block that the jump leads to. `Chained` says that the fields in memory
represent such a graph. Every operation of the code then is an operation on the graph: an edge
more, an edge less, all edges to one block gone, one block gone.

The graph is an argument of `Chained` and not read off the native jumps, because
`tb_phys_invalidate` takes a block out of the lists first and never resets its own jumps. While
it runs, the graph and the native jumps differ. They agree again, on the live blocks, when the
block is no longer live.
-/

namespace VariabilityTestbed.Exec

open Function Rings Unlinking Finset List Option

/-! ### The graph -/

/-- The block whose code is jumped to. -/
def Target.block : Target → Option ℕ
  | .code tb => some tb
  | _ => none

theorem Target.block_eq_some {x : Target} {t : ℕ} : x.block = some t ↔ x = .code t := by
  cases x <;> simp [Target.block]

theorem Target.block_eq_none {x : Target} : x.block = none ↔ ∀ t, x ≠ .code t := by
  cases x <;> simp [Target.block]

/-- The graph of the native jumps. -/
def JmpState.edge (s : JmpState) (u : ℕ) (n : Fin 2) : Option ℕ := (s.target u n).block

section SetJump

variable {β : Type*} (f : ℕ → Fin 2 → β) (u : ℕ) (n : Fin 2) (b : β)

@[simp] theorem setJump_self : setJump f u n b u n = b := if_pos ⟨rfl, rfl⟩

theorem setJump_of_ne {v : ℕ} {m : Fin 2} (h : JmpLink.next v m ≠ .next u n) :
    setJump f u n b v m = f v m := by
  refine if_neg fun heq => h ?_
  rw [heq.1, heq.2]

end SetJump

theorem edge_setJump (s : JmpState) (cell : JmpLink → Option JmpLink) (u : ℕ) (n : Fin 2)
    (x : Target) :
    JmpState.edge ⟨cell, setJump s.target u n x, s.live⟩ = setJump s.edge u n x.block := by
  funext v m
  exact apply_ite Target.block ..

/-- The heads of the lists of live blocks. -/
def heads (live : Finset ℕ) : Set JmpLink := {h | ∃ t ∈ live, h = .first t}

theorem first_mem_heads {live : Finset ℕ} {t : ℕ} (ht : t ∈ live) : .first t ∈ heads live :=
  ⟨t, ht, rfl⟩

/-- **The fields represent a graph.** The list of a block consists of the edges to it, and the
field of a jump that is no edge holds `NULL`. -/
structure Chained (cell : JmpLink → Option JmpLink) (live : Finset ℕ)
    (edge : ℕ → Fin 2 → Option ℕ) (lists : JmpLink → List JmpLink) : Prop where
  family : Family cell (heads live) lists
  mem : ∀ t ∈ live, ∀ x, x ∈ lists (.first t) ↔
    ∃ u n, x = .next u n ∧ u ∈ live ∧ edge u n = some t
  null : ∀ u ∈ live, ∀ n, cell (.next u n) = none ↔ edge u n = none
  closed : ∀ u ∈ live, ∀ n t, edge u n = some t → t ∈ live

namespace Chained

variable {cell : JmpLink → Option JmpLink} {live : Finset ℕ} {edge edge' : ℕ → Fin 2 → Option ℕ}
variable {lists : JmpLink → List JmpLink} {t u : ℕ} {n : Fin 2}

section

variable (hc : Chained cell live edge lists)
include hc

theorem next_mem (ht : t ∈ live) : .next u n ∈ lists (.first t) ↔ u ∈ live ∧ edge u n = some t := by
  rw [hc.mem t ht]
  constructor
  · rintro ⟨v, m, heq, h⟩
    cases heq
    exact h
  · exact fun h => ⟨u, n, rfl, h⟩

theorem first_not_mem (ht : t ∈ live) : .first u ∉ lists (.first t) := by
  intro h
  obtain ⟨v, m, heq, -⟩ := (hc.mem t ht _).mp h
  cases heq

theorem isNext_of_mem (ht : t ∈ live) : ∀ y ∈ lists (.first t), y.isNext = true := by
  intro y hy
  obtain ⟨v, m, rfl, -⟩ := (hc.mem t ht _).mp hy
  rfl

/-- Only the edges of live blocks matter. -/
theorem congr (hedge : ∀ u ∈ live, ∀ n, edge' u n = edge u n) : Chained cell live edge' lists where
  family := hc.family
  mem := by
    intro t ht x
    rw [hc.mem t ht]
    constructor
    · rintro ⟨u, n, hx, hu, he⟩
      exact ⟨u, n, hx, hu, (hedge u hu n).trans he⟩
    · rintro ⟨u, n, hx, hu, he⟩
      exact ⟨u, n, hx, hu, (hedge u hu n).symm.trans he⟩
  null := fun u hu n => by rw [hedge u hu n, hc.null u hu n]
  closed := fun u hu n t he => hc.closed u hu n t ((hedge u hu n).symm.trans he)

/-- A list is no longer than there are jumps of live blocks. -/
theorem length_le (ht : t ∈ live) : (lists (.first t)).length ≤ 2 * live.card := by
  have hnodup := (nodup_cons.mp (hc.family.nodup _ (first_mem_heads ht))).2
  have hsub : (lists (.first t)).toFinset ⊆
      (live ×ˢ univ).image fun p : ℕ × Fin 2 => JmpLink.next p.1 p.2 := by
    intro x hx
    obtain ⟨u, n, rfl, hu, -⟩ := (hc.mem t ht x).mp (List.mem_toFinset.mp hx)
    exact mem_image.mpr ⟨(u, n), by simp [hu], rfl⟩
  calc (lists (.first t)).length
      = (lists (.first t)).toFinset.card := (toFinset_card_of_nodup hnodup).symm
    _ ≤ _ := card_le_card hsub
    _ ≤ (live ×ˢ (univ : Finset (Fin 2))).card := card_image_le
    _ = 2 * live.card := by rw [card_product, card_univ, Fintype.card_fin, mul_comm]

end

/-! ### Operations on the graph -/

/-- A new block, without edges. -/
theorem link (hc : Chained cell live edge lists) (ht : t ∉ live)
    {cell' : JmpLink → Option JmpLink} (hfirst : cell' (.first t) = some (.first t))
    (hnull : ∀ n, cell' (.next t n) = none)
    (hsame : ∀ y, y ≠ .first t → (∀ n, y ≠ .next t n) → cell' y = cell y)
    (hnone : ∀ n, edge' t n = none) (hedge : ∀ u ∈ live, ∀ n, edge' u n = edge u n) :
    Chained cell' (insert t live) edge' (update lists (.first t) []) := by
  have hne : ∀ u ∈ live, u ≠ t := by
    rintro u hu rfl
    exact ht hu
  have hheads : heads (insert t live) = insert (.first t) (heads live) := by
    ext y
    simp [heads]
  -- no field of the new block is on a list
  have hout : ∀ h ∈ heads live, ∀ y ∈ h :: lists h, y ≠ .first t ∧ ∀ n, y ≠ .next t n := by
    rintro _ ⟨v, hv, rfl⟩ y hy
    rcases List.mem_cons.mp hy with rfl | hy
    · exact ⟨fun heq => hne v hv (JmpLink.first.inj heq), nofun⟩
    · obtain ⟨u, m, rfl, hu, -⟩ := (hc.mem v hv y).mp hy
      exact ⟨fun heq => (nomatch heq), fun n heq => hne u hu (JmpLink.next.inj heq).1⟩
  constructor
  · rw [hheads]
    refine hc.family.new (fun h hh hmem => (hout h hh _ hmem).1 rfl) hfirst fun h hh y hy => ?_
    exact hsame y (hout h hh y hy).1 (hout h hh y hy).2
  · intro v hv x
    rcases mem_insert.mp hv with rfl | hv
    · rw [update_self]
      constructor
      · exact nofun
      · rintro ⟨u, n, -, hu, he⟩
        rcases mem_insert.mp hu with rfl | hu
        · exact absurd ((hnone n).symm.trans he) nofun
        · exact absurd (hc.closed u hu n v ((hedge u hu n).symm.trans he)) ht
    · rw [update_of_ne (fun heq => hne v hv (JmpLink.first.inj heq)), hc.mem v hv]
      constructor
      · rintro ⟨u, n, hx, hu, he⟩
        exact ⟨u, n, hx, Finset.mem_insert_of_mem hu, (hedge u hu n).trans he⟩
      · rintro ⟨u, n, hx, hu, he⟩
        rcases mem_insert.mp hu with rfl | hu
        · exact absurd ((hnone n).symm.trans he) nofun
        · exact ⟨u, n, hx, hu, (hedge u hu n).symm.trans he⟩
  · intro u hu n
    rcases mem_insert.mp hu with rfl | hu
    · exact iff_of_true (hnull n) (hnone n)
    · have hcell : cell' (.next u n) = cell (.next u n) :=
        hsame _ nofun fun m heq => hne u hu (JmpLink.next.inj heq).1
      rw [hedge u hu n, hcell, hc.null u hu n]
  · intro u hu n v he
    rcases mem_insert.mp hu with rfl | hu
    · exact absurd ((hnone n).symm.trans he) nofun
    · exact Finset.mem_insert_of_mem (hc.closed u hu n v ((hedge u hu n).symm.trans he))

section

variable (hc : Chained cell live edge lists)
include hc

/-- A change to the edges that lead to one block, and to its list. -/
theorem change (ht : t ∈ live) {cell' : JmpLink → Option JmpLink} {l : List JmpLink}
    (hfamily : Family cell' (heads live) (update lists (.first t) l))
    (hnext : ∀ x ∈ l, x.isNext = true)
    (hthis : ∀ u n, .next u n ∈ l ↔ u ∈ live ∧ edge' u n = some t)
    (hother : ∀ u ∈ live, ∀ n v, v ≠ t → (edge' u n = some v ↔ edge u n = some v))
    (hnull : ∀ u ∈ live, ∀ n, cell' (.next u n) = none ↔ edge' u n = none) :
    Chained cell' live edge' (update lists (.first t) l) := by
  refine ⟨hfamily, fun v hv x => ?_, hnull, fun u hu n v he => ?_⟩
  · by_cases hvt : v = t
    · rw [hvt, update_self]
      constructor
      · intro hx
        cases x with
        | next u n => exact ⟨u, n, rfl, (hthis u n).mp hx⟩
        | first u => exact absurd (hnext _ hx) Bool.false_ne_true
      · rintro ⟨u, n, rfl, h⟩
        exact (hthis u n).mpr h
    · rw [update_of_ne (fun heq => hvt (JmpLink.first.inj heq)), hc.mem v hv]
      constructor
      · rintro ⟨u, n, hx, hu, he⟩
        exact ⟨u, n, hx, hu, (hother u hu n v hvt).mpr he⟩
      · rintro ⟨u, n, hx, hu, he⟩
        exact ⟨u, n, hx, hu, (hother u hu n v hvt).mp he⟩
  · by_cases hvt : v = t
    · exact hvt ▸ ht
    · exact hc.closed u hu n v ((hother u hu n v hvt).mp he)

/-- The first field of a list is not `NULL`. -/
theorem first_ne_none (ht : t ∈ live) : cell (.first t) ≠ none := by
  obtain ⟨x, hx⟩ := (hc.family.ring _ (first_mem_heads ht)).exists_succ
  rw [hx]
  exact some_ne_none x

/-- An edge to `t` more. -/
theorem push (hu : u ∈ live) (ht : t ∈ live) (hnone : edge u n = none) :
    Chained (update (update cell (.next u n) (cell (.first t))) (.first t)
      (some (.next u n))) live (setJump edge u n (some t))
      (update lists (.first t) (.next u n :: lists (.first t))) := by
  have hfresh : ∀ h ∈ heads live, .next u n ∉ h :: lists h := by
    rintro _ ⟨v, hv, rfl⟩ hmem
    rcases List.mem_cons.mp hmem with heq | hmem
    · cases heq
    · exact absurd (hnone.symm.trans ((hc.next_mem hv).mp hmem).2) nofun
  refine hc.change ht (hc.family.push (first_mem_heads ht) hfresh) ?_ ?_ ?_ ?_
  · intro x hx
    rcases List.mem_cons.mp hx with rfl | hx
    · rfl
    · exact hc.isNext_of_mem ht x hx
  · intro v m
    by_cases heq : JmpLink.next v m = .next u n
    · cases heq
      exact iff_of_true (.head _) ⟨hu, setJump_self ..⟩
    · rw [setJump_of_ne _ _ _ _ heq, List.mem_cons, or_iff_right heq]
      exact hc.next_mem ht
  · intro v _ m w hw
    by_cases heq : JmpLink.next v m = .next u n
    · cases heq
      rw [setJump_self, hnone]
      exact iff_of_false (fun h => hw (some.inj h).symm) nofun
    · rw [setJump_of_ne _ _ _ _ heq]
  · intro v hv m
    rw [update_of_ne (by nofun)]
    by_cases heq : JmpLink.next v m = .next u n
    · cases heq
      rw [update_self, setJump_self]
      exact iff_of_false (hc.first_ne_none ht) nofun
    · rw [update_of_ne heq, setJump_of_ne _ _ _ _ heq]
      exact hc.null v hv m

/-- An edge less. -/
theorem remove (hu : u ∈ live) (ht : t ∈ live) (he : edge u n = some t) {l₁ l₂ : List JmpLink}
    (hlist : lists (.first t) = l₁ ++ .next u n :: l₂) :
    Chained (update (update cell
      ((.first t :: l₁).getLast (cons_ne_nil _ _)) (cell (.next u n))) (.next u n) none) live
      (setJump edge u n none) (update lists (.first t) (l₁ ++ l₂)) := by
  have hnodup := (nodup_cons.mp (hc.family.nodup _ (first_mem_heads ht))).2
  rw [hlist] at hnodup
  have hout : JmpLink.next u n ∉ l₁ ++ l₂ := (nodup_middle.mp hnodup).notMem
  have hmem : ∀ y, y ≠ .next u n → (y ∈ l₁ ++ l₂ ↔ y ∈ lists (.first t)) := by
    intro y hy
    rw [hlist]
    simp [hy]
  refine hc.change ht (hc.family.remove (first_mem_heads ht) hlist) ?_ ?_ ?_ ?_
  · intro x hx
    have hne : x ≠ .next u n := fun heq => hout (heq ▸ hx)
    exact hc.isNext_of_mem ht x ((hmem x hne).mp hx)
  · intro v m
    by_cases heq : JmpLink.next v m = .next u n
    · cases heq
      rw [setJump_self]
      exact iff_of_false hout fun h => nomatch h.2
    · rw [setJump_of_ne _ _ _ _ heq, hmem _ heq]
      exact hc.next_mem ht
  · intro v _ m w hw
    by_cases heq : JmpLink.next v m = .next u n
    · cases heq
      rw [setJump_self, he]
      exact iff_of_false nofun fun h => hw (some.inj h).symm
    · rw [setJump_of_ne _ _ _ _ heq]
  · intro v hv m
    by_cases heq : JmpLink.next v m = .next u n
    · cases heq
      exact iff_of_true (update_self ..) (setJump_self ..)
    · rw [update_of_ne heq, setJump_of_ne _ _ _ _ heq]
      by_cases hlast : JmpLink.next v m = (.first t :: l₁).getLast (cons_ne_nil _ _)
      · -- the field in front was and is not `NULL`
        have hin : JmpLink.next v m ∈ .first t :: l₁ := hlast ▸ getLast_mem _
        have hin₁ : JmpLink.next v m ∈ lists (.first t) := by
          rw [hlist]
          exact mem_append_left _ (mem_of_ne_of_mem (by nofun) hin)
        rw [← hlast, update_self, hc.null u hu n, he, ((hc.next_mem ht).mp hin₁).2]
      · rw [update_of_ne hlast]
        exact hc.null v hv m

/-- All edges to `t` gone. -/
theorem clear (ht : t ∈ live) {cell' : JmpLink → Option JmpLink}
    (hfirst : cell' (.first t) = some (.first t))
    (hcleared : ∀ y ∈ lists (.first t), cell' y = none)
    (hsame : ∀ y, y ∉ .first t :: lists (.first t) → cell' y = cell y) :
    Chained cell' live (fun u n => if edge u n = some t then none else edge u n)
      (update lists (.first t) []) := by
  refine hc.change ht (hc.family.clear (first_mem_heads ht) hfirst hsame) nofun ?_ ?_ ?_
  · intro u n
    refine iff_of_false not_mem_nil ?_
    rintro ⟨-, he⟩
    split at he
    · cases he
    · contradiction
  · intro u _ n v hv
    split
    next he =>
      rw [he]
      exact iff_of_false nofun fun h => hv (some.inj h).symm
    next => rfl
  · intro u hu n
    split
    next he => exact iff_of_true (hcleared _ ((hc.next_mem ht).mpr ⟨hu, he⟩)) rfl
    next he =>
      have hout : JmpLink.next u n ∉ .first t :: lists (.first t) := by
        intro hmem
        exact he ((hc.next_mem ht).mp (mem_of_ne_of_mem (by nofun) hmem)).2
      rw [hsame _ hout]
      exact hc.null u hu n

/-- A block without edges gone. -/
theorem erase (hin : ∀ u ∈ live, ∀ n, edge u n ≠ some t) (hout : ∀ n, edge t n = none) :
    Chained cell (live.erase t) edge lists := by
  have hlive : ∀ u n v, u ∈ live → edge u n = some v → u ∈ live.erase t := by
    rintro u n v hu he
    refine mem_erase_of_ne_of_mem ?_ hu
    rintro rfl
    exact absurd ((hout n).symm.trans he) nofun
  constructor
  · refine hc.family.mono ?_
    rintro _ ⟨v, hv, rfl⟩
    exact first_mem_heads (Finset.mem_of_mem_erase hv)
  · intro v hv x
    rw [hc.mem v (Finset.mem_of_mem_erase hv)]
    constructor
    · rintro ⟨u, n, hx, hu, he⟩
      exact ⟨u, n, hx, hlive u n v hu he, he⟩
    · rintro ⟨u, n, hx, hu, he⟩
      exact ⟨u, n, hx, Finset.mem_of_mem_erase hu, he⟩
  · exact fun u hu n => hc.null u (Finset.mem_of_mem_erase hu) n
  · intro u hu n v he
    have hold := Finset.mem_of_mem_erase hu
    refine mem_erase_of_ne_of_mem ?_ (hc.closed u hold n v he)
    rintro rfl
    exact hin u hold n he

end

end Chained

/-! ### The loops -/

/-- What the loop of `tb_phys_invalidate` does, when it has gone through the fields `l`. -/
def suppressed (s : JmpState) (l : List JmpLink) : JmpState where
  cell := fun y => if y ∈ l then none else s.cell y
  target := fun u n => if .next u n ∈ l then .reset else s.target u n
  live := s.live

theorem suppressed_cons (s : JmpState) (u : ℕ) (n : Fin 2) (l : List JmpLink) :
    suppressed s (.next u n :: l) =
      suppressed { s with
        cell := update s.cell (.next u n) none
        target := setJump s.target u n .reset } l := by
  refine JmpState.ext (funext fun y => ?_) (funext fun v => funext fun m => ?_) rfl
  · by_cases hy : y = .next u n
    · simp [suppressed, hy]
    · simp [suppressed, hy]
  · by_cases hv : JmpLink.next v m = .next u n
    · cases hv
      simp [suppressed]
    · simp only [suppressed, setJump_of_ne _ _ _ _ hv, List.mem_cons, hv, false_or]

/-- **The loop of `tb_phys_invalidate` ends.** The path is that of the memory before the loop,
which has been left alone in what is still ahead. -/
theorem suppressJumps_eq {succ : JmpLink → Option JmpLink} {a x : JmpLink} {l : List JmpLink}
    {t fuel : ℕ} {s : JmpState} (hpath : Path succ a l (.first t)) (hx : succ a = some x)
    (hsame : ∀ y ∈ l, s.cell y = succ y) (hnodup : l.Nodup) (hnext : ∀ y ∈ l, y.isNext = true)
    (hfuel : l.length < fuel) : suppressJumps fuel s x = some (suppressed s l) := by
  induction l generalizing a x s fuel with
  | nil =>
    obtain ⟨k, rfl⟩ := Nat.exists_eq_add_one.mpr hfuel
    obtain rfl : x = .first t := some.inj (hx.symm.trans hpath)
    rfl
  | cons y l ih =>
    obtain ⟨k, rfl⟩ := Nat.exists_eq_add_one.mpr (Nat.zero_lt_of_lt hfuel)
    obtain rfl : x = y := some.inj (hx.symm.trans hpath.1)
    obtain ⟨z, hz⟩ := hpath.2.exists_succ
    obtain ⟨hout, hnodup'⟩ := nodup_cons.mp hnodup
    cases x with
    | first u => exact absurd (hnext _ (.head _)) Bool.false_ne_true
    | next u n =>
      have hcell : s.cell (.next u n) = some z := (hsame _ (.head _)).trans hz
      rw [suppressed_cons, ← ih hpath.2 hz _ hnodup'
        (fun y hy => hnext y (.tail _ hy)) (Nat.lt_of_succ_lt_succ hfuel)]
      · simp only [suppressJumps, hcell]
        rfl
      · intro y hy
        have hne : y ≠ .next u n := fun heq => hout (heq ▸ hy)
        exact (update_of_ne hne _ _).trans (hsame y (.tail _ hy))

/-- **The head of a list is found.** -/
theorem findHead_eq {cell : JmpLink → Option JmpLink} {a x : JmpLink} {l : List JmpLink}
    {t fuel : ℕ} (hpath : Path cell a l (.first t)) (hx : cell a = some x)
    (hnext : ∀ y ∈ l, y.isNext = true) (hfuel : l.length < fuel) :
    findHead cell fuel x = some t := by
  induction l generalizing a x fuel with
  | nil =>
    obtain ⟨k, rfl⟩ := Nat.exists_eq_add_one.mpr hfuel
    obtain rfl : x = .first t := some.inj (hx.symm.trans hpath)
    rfl
  | cons y l ih =>
    obtain ⟨k, rfl⟩ := Nat.exists_eq_add_one.mpr (Nat.zero_lt_of_lt hfuel)
    obtain rfl : x = y := some.inj (hx.symm.trans hpath.1)
    obtain ⟨z, hz⟩ := hpath.2.exists_succ
    cases x with
    | first u => exact absurd (hnext _ (.head _)) Bool.false_ne_true
    | next u n =>
      show (cell (.next u n)).bind (findHead cell k) = some t
      rw [hz]
      exact ih hpath.2 hz (fun y hy => hnext y (.tail _ hy)) (Nat.lt_of_succ_lt_succ hfuel)

/-! ### The code on the graph -/

namespace Chained

variable {s : JmpState} {edge : ℕ → Fin 2 → Option ℕ} {lists : JmpLink → List JmpLink}
variable {t u : ℕ} {n : Fin 2}

/-- An edge is somewhere on the list of the block it leads to. -/
theorem exists_split {cell : JmpLink → Option JmpLink} {live : Finset ℕ}
    (hc : Chained cell live edge lists) (hu : u ∈ live) (he : edge u n = some t) :
    ∃ l₁ l₂, lists (.first t) = l₁ ++ .next u n :: l₂ :=
  append_of_mem ((hc.next_mem (hc.closed u hu n t he)).mpr ⟨hu, he⟩)

section

variable (hc : Chained s.cell s.live edge lists)
include hc

theorem length_lt_bound (ht : t ∈ s.live) : (lists (.first t)).length < s.bound :=
  Nat.lt_of_le_of_lt (hc.length_le ht) (Nat.lt_add_of_pos_right Nat.two_pos)

/-- **`tb_jmp_remove` takes one edge away.** -/
theorem tbJmpRemove_eq (hu : u ∈ s.live) :
    ∃ cell' lists', tbJmpRemove s u n = some { s with cell := cell' } ∧
      Chained cell' s.live (setJump edge u n none) lists' := by
  cases he : edge u n with
  | none =>
    refine ⟨s.cell, lists, if_pos ((hc.null u hu n).mpr he), hc.congr fun v _ m => ?_⟩
    by_cases heq : JmpLink.next v m = .next u n
    · cases heq
      rw [setJump_self, he]
    · exact setJump_of_ne _ _ _ _ heq
  | some t =>
    have ht := hc.closed u hu n t he
    obtain ⟨l₁, l₂, hlist⟩ := hc.exists_split hu he
    have hcell : s.cell (.next u n) ≠ none := by
      rw [Ne, hc.null u hu n, he]
      nofun
    have hpred := hc.family.findPred_around (first_mem_heads ht) hlist (hc.length_lt_bound ht)
    refine ⟨_, _, ?_, hc.remove hu ht he hlist⟩
    rw [tbJmpRemove, if_neg hcell, hpred]
    rfl

/-- The rest of `tb_phys_invalidate`, for a block that has no edges of its own any more. -/
theorem suppress_eq (ht : t ∈ s.live) (hout : ∀ n, edge t n = none)
    (hedge : ∀ u ∈ s.live, u ≠ t → ∀ n, edge u n = s.edge u n) :
    ∃ tb1 s' lists', s.cell (.first t) = some tb1 ∧ suppressJumps s.bound s tb1 = some s' ∧
      s'.live = s.live ∧ Chained (update s'.cell (.first t) (some (.first t)))
        (s.live.erase t) s'.edge lists' := by
  have hring := hc.family.ring _ (first_mem_heads ht)
  obtain ⟨tb1, htb1⟩ := hring.exists_succ
  have hnodup := (nodup_cons.mp (hc.family.nodup _ (first_mem_heads ht))).2
  have hcleared : ∀ y ∈ lists (.first t), update (suppressed s (lists (.first t))).cell
      (.first t) (some (.first t)) y = none := by
    intro y hy
    have hne : y ≠ .first t := fun heq => hc.first_not_mem ht (heq ▸ hy)
    rw [update_of_ne hne]
    exact if_pos hy
  have hsame : ∀ y, y ∉ .first t :: lists (.first t) →
      update (suppressed s (lists (.first t))).cell (.first t) (some (.first t)) y = s.cell y := by
    intro y hy
    rw [List.mem_cons, not_or] at hy
    rw [update_of_ne hy.1]
    exact if_neg hy.2
  have hclear := hc.clear ht (update_self ..) hcleared hsame
  refine ⟨tb1, suppressed s (lists (.first t)), update lists (.first t) [], htb1,
    suppressJumps_eq hring htb1 (fun _ _ => rfl) hnodup (hc.isNext_of_mem ht)
      (hc.length_lt_bound ht), rfl, (hclear.erase ?_ ?_).congr ?_⟩
  · intro u _ n
    split
    · nofun
    · assumption
  · intro n
    rw [hout n]
    rfl
  · intro u hu n
    obtain ⟨hut, hu⟩ := mem_erase.mp hu
    have hmem := hc.next_mem (n := n) (u := u) ht
    simp only [JmpState.edge, suppressed, hmem, hu, true_and, hedge u hu hut]
    split <;> rfl

end

/-- **`tb_phys_invalidate` takes one block away.** -/
theorem tbPhysInvalidate_eq (hc : Chained s.cell s.live s.edge lists) (ht : t ∈ s.live) :
    ∃ s' lists', tbPhysInvalidate s t = some s' ∧ s'.live = s.live.erase t ∧
      Chained s'.cell s'.live s'.edge lists' := by
  obtain ⟨cell₀, lists₀, hrun₀, hc₀⟩ := hc.tbJmpRemove_eq (n := 0) ht
  obtain ⟨cell₁, lists₁, hrun₁, hc₁⟩ :=
    tbJmpRemove_eq (s := { s with cell := cell₀ }) (n := 1) hc₀ ht
  have hout : ∀ n, setJump (setJump s.edge t 0 none) t 1 none t n = none := by
    intro n
    match n with
    | 0 => simp [setJump]
    | 1 => simp [setJump]
  have hedge : ∀ u ∈ s.live, u ≠ t → ∀ n,
      setJump (setJump s.edge t 0 none) t 1 none u n = s.edge u n := by
    intro u _ hut n
    have hne : ∀ m, JmpLink.next u n ≠ .next t m := fun m heq => hut (JmpLink.next.inj heq).1
    rw [setJump_of_ne _ _ _ _ (hne 1), setJump_of_ne _ _ _ _ (hne 0)]
  obtain ⟨tb1, s', lists', htb1, hsuppress, hlive, hc'⟩ :=
    suppress_eq (s := { s with cell := cell₁ }) hc₁ ht hout hedge
  dsimp only at htb1 hlive hc'
  refine ⟨{ s' with
      cell := update s'.cell (.first t) (some (.first t))
      live := s'.live.erase t }, lists', ?_, ?_, ?_⟩
  · simp only [tbPhysInvalidate, hrun₀, bind_eq_bind, bind_some, hrun₁]
    rw [htb1, bind_some, hsuppress]
    rfl
  · exact congrArg (Finset.erase · t) hlive
  · show Chained _ (s'.live.erase t) _ _
    rw [hlive]
    exact hc'

end Chained

/-! ### Recursive unchaining -/

/-- The number of patched jumps of live blocks. -/
def JmpState.edgeCount (s : JmpState) : ℕ :=
  ((s.live ×ˢ Finset.univ).filter fun p : ℕ × Fin 2 => s.edge p.1 p.2 ≠ none).card

theorem edgeCount_lt_bound (s : JmpState) : s.edgeCount < s.bound := by
  refine Nat.lt_of_le_of_lt (card_filter_le ..) ?_
  rw [card_product, card_univ, Fintype.card_fin, mul_comm]
  exact Nat.lt_add_of_pos_right Nat.two_pos

/-- An edge less is one less. -/
theorem edgeCount_setJump_lt (s : JmpState) (cell : JmpLink → Option JmpLink) {u : ℕ} {n : Fin 2}
    (hu : u ∈ s.live) (he : s.edge u n ≠ none) :
    JmpState.edgeCount ⟨cell, setJump s.target u n .reset, s.live⟩ < s.edgeCount := by
  refine card_lt_card (ssubset_iff_of_subset ?_ |>.mpr ⟨(u, n), ?_, ?_⟩)
  · rintro ⟨v, m⟩ hmem
    rw [edge_setJump] at hmem
    obtain ⟨hv, hmem⟩ := Finset.mem_filter.mp hmem
    refine Finset.mem_filter.mpr ⟨hv, fun hnone => hmem ?_⟩
    by_cases heq : JmpLink.next v m = .next u n
    · cases heq
      exact setJump_self ..
    · exact (setJump_of_ne _ _ _ _ heq).trans hnone
  · exact Finset.mem_filter.mpr ⟨Finset.mem_product.mpr ⟨hu, mem_univ n⟩, he⟩
  · rw [edge_setJump]
    exact fun hmem => (Finset.mem_filter.mp hmem).2 (setJump_self ..)

/-- There are lists that the fields represent the graph of the native jumps with. -/
def AllChained (s : JmpState) : Prop := ∃ lists, Chained s.cell s.live s.edge lists

/-- A result of unchaining from `t`: the same blocks, no more edges than before, and exact lists;
and the edges that are gone are those of blocks that could be reached. -/
structure UnchainedFrom (t : ℕ) (s s' : JmpState) : Prop where
  live : s'.live = s.live
  edgeCount : s'.edgeCount ≤ s.edgeCount
  chained : AllChained s'
  cleared : Cleared Target.block s.target s'.target t

namespace Chained

variable {s : JmpState} {lists : JmpLink → List JmpLink} {t u : ℕ} {n : Fin 2} {fuel : ℕ}

/-- The removal of one edge by `tb_reset_jump_recursive2`. -/
theorem tbResetJumpRecursive2_eq (hc : Chained s.cell s.live s.edge lists) (hu : u ∈ s.live)
    (he : s.edge u n = some t) (recursive : JmpState → ℕ → Option JmpState) :
    ∃ s', tbResetJumpRecursive2 recursive s u n = recursive s' t ∧ s'.live = s.live ∧
      s'.target = setJump s.target u n .reset ∧ s'.edgeCount < s.edgeCount ∧ AllChained s' := by
  have ht := hc.closed u hu n t he
  obtain ⟨l₁, l₂, hlist⟩ := hc.exists_split hu he
  have hlength := hc.length_lt_bound ht
  have hring := hc.family.ring _ (first_mem_heads ht)
  have hnext := hc.isNext_of_mem ht
  have hpred := hc.family.findPred_head (first_mem_heads ht) hlist hnext hlength
  rw [hlist] at hring hnext hlength
  -- what is behind the edge leads to the head of the list
  have hback := (path_append.mp hring).2
  obtain ⟨tb1, htb1⟩ := hback.exists_succ
  have hhead : findHead s.cell s.bound tb1 = some t := by
    refine findHead_eq hback htb1 (fun y hy => hnext y ?_) ?_
    · exact mem_append_right _ (.tail _ hy)
    · simp only [length_append, length_cons] at hlength
      omega
  have hne : s.edge u n ≠ none := by
    rw [he]
    exact some_ne_none t
  have hremoved := hc.remove hu ht he hlist
  refine ⟨tbResetJump (unlink s ((.first t :: l₁).getLast (cons_ne_nil _ _)) (.next u n)) u n,
    ?_, rfl, rfl, edgeCount_setJump_lt s _ hu hne, update lists (.first t) (l₁ ++ l₂), ?_⟩
  · simp only [tbResetJumpRecursive2, htb1, hhead, hpred, bind_eq_bind, bind_some]
  · show Chained _ s.live (JmpState.edge ⟨_, setJump s.target u n .reset, s.live⟩) _
    rw [edge_setJump]
    exact hremoved

end Chained

section Recursive

variable {s s' : JmpState} {t u : ℕ} {n : Fin 2} {fuel : ℕ}

theorem unchained_recursive2 (hs : AllChained s) (hu : u ∈ s.live) (hcount : s.edgeCount < fuel + 1)
    (ih : ∀ s t, AllChained s → t ∈ s.live → s.edgeCount < fuel →
      ∃ s', tbResetJumpRecursive fuel s t = some s' ∧ UnchainedFrom t s s' ∧
      ∀ m, s'.edge t m = none)
    (n : Fin 2) :
    ∃ s', tbResetJumpRecursive2 (tbResetJumpRecursive fuel) s u n = some s' ∧ UnchainedFrom u s s' ∧
      s'.edge u n = none := by
  obtain ⟨lists, hc⟩ := hs
  cases he : s.edge u n with
  | none =>
    have hnull := (hc.null u hu n).mpr he
    refine ⟨s, ?_, ⟨rfl, le_rfl, ⟨lists, hc⟩, .refl⟩, he⟩
    simp only [tbResetJumpRecursive2, hnull]
  | some t =>
    obtain ⟨s₁, hrun, hlive, htarget, hlt, hs₁⟩ :=
      hc.tbResetJumpRecursive2_eq hu he (tbResetJumpRecursive fuel)
    have ht : t ∈ s₁.live := hlive ▸ hc.closed u hu n t he
    obtain ⟨s', hrun', hunchained, hempty⟩ := ih s₁ t hs₁ ht (by omega)
    have hreset : (s₁.target u n).block = none := by
      rw [htarget, setJump_self]
      rfl
    have hcleared : Cleared Target.block s.target s'.target u := by
      refine .of_link he hreset (fun v m hvm => ?_) hunchained.cleared hempty
      rw [htarget]
      refine setJump_of_ne _ _ _ _ fun heq => ?_
      cases heq
      exact hvm rfl rfl
    refine ⟨s', hrun.trans hrun', ⟨hunchained.live.trans hlive, ?_, hunchained.chained, hcleared⟩,
      hunchained.cleared.stays_none hreset⟩
    exact hunchained.edgeCount.trans (Nat.le_of_lt hlt)

/-- **`tb_reset_jump_recursive` returns.** Each call takes at least one edge away before the next
one, so there are no more calls than edges. -/
theorem unchained_recursive (hs : AllChained s) (ht : t ∈ s.live) (hcount : s.edgeCount < fuel) :
    ∃ s', tbResetJumpRecursive fuel s t = some s' ∧ UnchainedFrom t s s' ∧
    ∀ m, s'.edge t m = none := by
  induction fuel generalizing s t with
  | zero => cases hcount
  | succ fuel ih =>
    have ih' : ∀ s t, AllChained s → t ∈ s.live → s.edgeCount < fuel →
        ∃ s', tbResetJumpRecursive fuel s t = some s' ∧ UnchainedFrom t s s' ∧
        ∀ m, s'.edge t m = none :=
      fun s t hs ht hcount => ih hs ht hcount
    obtain ⟨s₀, hrun₀, h₀, hempty₀⟩ := unchained_recursive2 hs ht hcount ih' 0
    obtain ⟨s₁, hrun₁, h₁, hempty₁⟩ :=
      unchained_recursive2 h₀.chained (h₀.live ▸ ht) (Nat.lt_of_le_of_lt h₀.edgeCount hcount) ih' 1
    refine ⟨s₁, ?_, ⟨h₁.live.trans h₀.live, h₁.edgeCount.trans h₀.edgeCount, h₁.chained,
      h₀.cleared.trans h₁.cleared⟩, fun m => ?_⟩
    · rw [tbResetJumpRecursive, hrun₀]
      exact hrun₁
    · match m with
      | 0 => exact h₁.cleared.stays_none hempty₀
      | 1 => exact hempty₁

end Recursive

/-- For a block whose fields are `NULL` nothing is done. -/
theorem tbResetJumpRecursive_of_null {s : JmpState} {t : ℕ} (h : ∀ n, s.cell (.next t n) = none)
    (fuel : ℕ) : tbResetJumpRecursive (fuel + 1) s t = some s := by
  have hnone : ∀ recursive n, tbResetJumpRecursive2 recursive s t n = some s := by
    intro recursive n
    simp only [tbResetJumpRecursive2, h n]
  rw [tbResetJumpRecursive, hnone, bind_some, hnone]

/-! ### Fields that hold `NULL`

Invalidation never writes into a field that holds `NULL`, whether the block is live or not. -/

theorem tbJmpRemove_null {s s' : JmpState} {t : ℕ} {n : Fin 2} (h : tbJmpRemove s t n = some s') :
    s'.cell (.next t n) = none ∧ ∀ x, s.cell x = none → s'.cell x = none := by
  rw [tbJmpRemove] at h
  split at h
  next hnull =>
    cases h
    exact ⟨hnull, fun _ => id⟩
  next =>
    obtain ⟨p, hp, rfl⟩ := map_eq_some_iff.mp h
    have hsucc := succ_of_findPred hp
    refine ⟨update_self .., fun x hx => ?_⟩
    have hxp : x ≠ p := by
      rintro rfl
      exact absurd (hx.symm.trans hsucc) nofun
    show update (update s.cell p _) (.next t n) none x = none
    rw [update_apply, update_of_ne hxp, hx, ite_self]

theorem suppressJumps_null {s s' : JmpState} {fuel : ℕ} {y : JmpLink}
    (h : suppressJumps fuel s y = some s') : ∀ x, s.cell x = none → s'.cell x = none := by
  induction fuel generalizing s y with
  | zero => cases h
  | succ fuel ih =>
    cases y with
    | first t =>
      cases h
      exact fun _ => id
    | next t n =>
      rw [suppressJumps] at h
      split at h
      · cases h
      intro x hx
      refine ih h x ?_
      show update s.cell (.next t n) none x = none
      rw [update_apply, hx, ite_self]

theorem tbPhysInvalidate_null {s s' : JmpState} {t : ℕ} (h : tbPhysInvalidate s t = some s') :
    (∀ n, s'.cell (.next t n) = none) ∧
      ∀ u n, s.cell (.next u n) = none → s'.cell (.next u n) = none := by
  simp only [tbPhysInvalidate, bind, bind_eq_some_iff] at h
  obtain ⟨s₁, h₁, s₂, h₂, tb1, -, s₃, h₃, h⟩ := h
  cases h
  obtain ⟨hself₁, hkeep₁⟩ := tbJmpRemove_null h₁
  obtain ⟨hself₂, hkeep₂⟩ := tbJmpRemove_null h₂
  have hkeep₃ := suppressJumps_null h₃
  have hnext : ∀ u n, s₃.cell (.next u n) = none →
      update s₃.cell (.first t) (some (.first t)) (.next u n) = none := by
    intro u n hnull
    rw [update_of_ne (by simp), hnull]
  refine ⟨fun n => hnext t n (hkeep₃ _ ?_), fun u n hnull => ?_⟩
  · match n with
    | 0 => exact hkeep₂ _ hself₁
    | 1 => exact hself₂
  · exact hnext u n (hkeep₃ _ (hkeep₂ _ (hkeep₁ _ hnull)))

/-! ### Every state that can be reached -/

theorem allChained_of_live_eq_empty {s : JmpState} (h : s.live = ∅) : AllChained s := by
  have hout : ∀ t, t ∉ s.live := fun t ht => absurd (h ▸ ht) (notMem_empty t)
  have hheads : heads s.live = ∅ := by
    ext y
    simp [heads, h]
  refine ⟨fun _ => [], ?_, fun t ht => absurd ht (hout t), fun t ht => absurd ht (hout t),
    fun t ht => absurd ht (hout t)⟩
  rw [hheads]
  exact Family.empty _ _

theorem AllChained.tbLinkPage {s : JmpState} (hs : AllChained s) {t : ℕ} (ht : t ∉ s.live)
    (hasJump : Fin 2 → Bool) : AllChained (tbLinkPage s t hasJump) := by
  obtain ⟨lists, hc⟩ := hs
  refine ⟨_, hc.link ht ?_ ?_ ?_ ?_ ?_⟩
  · simp [Exec.tbLinkPage]
  · intro n
    match n with
    | 0 => simp [Exec.tbLinkPage]
    | 1 => simp [Exec.tbLinkPage]
  · intro y hfirst hnext
    simp [Exec.tbLinkPage, hfirst, hnext]
  · intro n
    simp only [JmpState.edge, Exec.tbLinkPage, update_self]
    split <;> rfl
  · intro u hu n
    have hne : u ≠ t := fun heq => ht (heq ▸ hu)
    simp [JmpState.edge, Exec.tbLinkPage, hne]

theorem AllChained.tbAddJump {s : JmpState} (hs : AllChained s) {u t : ℕ} (n : Fin 2)
    (hu : u ∈ s.live) (ht : t ∈ s.live) : AllChained (tbAddJump s u n t) := by
  obtain ⟨lists, hc⟩ := hs
  rw [Exec.tbAddJump]
  split
  next hnull =>
    refine ⟨update lists (.first t) (.next u n :: lists (.first t)), ?_⟩
    rw [edge_setJump]
    exact hc.push hu ht ((hc.null u hu n).mp hnull)
  next => exact ⟨lists, hc⟩

/-- **Every operation that is called returns, and leaves exact lists.** -/
theorem AllChained.step {s : JmpState} (hs : AllChained s) {op : JmpOp} (hop : op.Enabled s) :
    ∃ s', jmpStep s op = some s' ∧ AllChained s' := by
  cases op with
  | tbLinkPage t hasJump => exact ⟨_, if_pos hop, hs.tbLinkPage hop hasJump⟩
  | tbAddJump u n t => exact ⟨_, if_pos hop, hs.tbAddJump n hop.1 hop.2.1⟩
  | tbPhysInvalidate t =>
    obtain ⟨lists, hc⟩ := hs
    obtain ⟨s', lists', hrun, -, hc'⟩ := hc.tbPhysInvalidate_eq hop
    exact ⟨s', (if_pos hop).trans hrun, lists', hc'⟩
  | tbResetJumpRecursive t =>
    rcases hop with ht | hnull
    · obtain ⟨s', hrun, hunchained, -⟩ := unchained_recursive hs ht (edgeCount_lt_bound s)
      exact ⟨s', (if_pos (.inl ht)).trans hrun, hunchained.chained⟩
    · exact ⟨s, (if_pos (.inr hnull)).trans (tbResetJumpRecursive_of_null hnull _), hs⟩
  | tbFlush => exact ⟨_, if_pos hop, allChained_of_live_eq_empty rfl⟩

theorem enabled_of_jmpStep {s s' : JmpState} {op : JmpOp} (h : jmpStep s op = some s') :
    op.Enabled s := by
  by_contra hop
  exact absurd ((if_neg hop).symm.trans h) nofun

theorem AllChained.live_of_tbResetJumpRecursive {s s' : JmpState} (hs : AllChained s) {t : ℕ}
    (h : jmpStep s (.tbResetJumpRecursive t) = some s') : s'.live = s.live := by
  have hop := enabled_of_jmpStep h
  have hrun : Exec.tbResetJumpRecursive s.bound s t = some s' := (if_pos hop).symm.trans h
  rcases hop with ht | hnull
  · obtain ⟨s'', hrun', hunchained, -⟩ := unchained_recursive hs ht (edgeCount_lt_bound s)
    obtain rfl : s'' = s' := some.inj (hrun'.symm.trans hrun)
    exact hunchained.live
  · obtain rfl : s = s' := some.inj ((tbResetJumpRecursive_of_null hnull _).symm.trans hrun)
    rfl

theorem live_of_tbAddJump {s s' : JmpState} {u t : ℕ} {n : Fin 2}
    (h : jmpStep s (.tbAddJump u n t) = some s') : s'.live = s.live := by
  obtain rfl : tbAddJump s u n t = s' := some.inj ((if_pos (enabled_of_jmpStep h)).symm.trans h)
  rw [tbAddJump]
  split <;> rfl

theorem allChained_of_run {cell : JmpLink → Option JmpLink} {target : ℕ → Fin 2 → Target}
    {ops : List JmpOp} {s : JmpState}
    (h : Runs.run jmpStep (initJmpState cell target) ops = some s) : AllChained s := by
  refine Runs.run_invariant (fun s op s' hs hstep => ?_) (allChained_of_live_eq_empty rfl) h
  obtain ⟨s'', hstep', hs'⟩ := hs.step (enabled_of_jmpStep hstep)
  obtain rfl : s'' = s' := some.inj (hstep'.symm.trans hstep)
  exact hs'

/-- The lists of the live blocks enumerate the patched jumps of the blocks `tbs`, each once, and a
jump of one of these is patched if and only if its field is not `NULL`. -/
def ListsExact (s : JmpState) (tbs : Set ℕ) : Prop :=
  (∀ t ∈ s.live, ∃ jumps : List (ℕ × Fin 2), jumps.Nodup ∧
    Path s.cell (.first t) (jumps.map fun j => .next j.1 j.2) (.first t) ∧
    ∀ u n, (u, n) ∈ jumps ↔ u ∈ tbs ∧ s.target u n = .code t) ∧
  ∀ u ∈ tbs, ∀ n, s.cell (.next u n) ≠ none ↔ ∃ t, s.target u n = .code t

/-- The jumps on a list. -/
def jumpsOf : List JmpLink → List (ℕ × Fin 2)
  | [] => []
  | .next u n :: l => (u, n) :: jumpsOf l
  | .first _ :: l => jumpsOf l

theorem map_jumpsOf {l : List JmpLink} (h : ∀ x ∈ l, x.isNext = true) :
    (jumpsOf l).map (fun j => JmpLink.next j.1 j.2) = l := by
  induction l with
  | nil => rfl
  | cons x l ih =>
    have ih := ih fun y hy => h y (.tail _ hy)
    cases x with
    | next u n => exact congrArg (JmpLink.next u n :: ·) ih
    | first t => exact absurd (h _ (.head _)) Bool.false_ne_true

theorem AllChained.listsExact {s : JmpState} (hs : AllChained s) : ListsExact s s.live := by
  obtain ⟨lists, hc⟩ := hs
  constructor
  · intro t ht
    have hmap := map_jumpsOf (hc.isNext_of_mem ht)
    have hnodup := (nodup_cons.mp (hc.family.nodup _ (first_mem_heads ht))).2
    have hring := hc.family.ring _ (first_mem_heads ht)
    rw [← hmap] at hnodup hring
    refine ⟨jumpsOf (lists (.first t)), hnodup.of_map _, hring, fun u n => ?_⟩
    have hinj : Injective fun j : ℕ × Fin 2 => JmpLink.next j.1 j.2 := by
      rintro ⟨u, n⟩ ⟨v, m⟩ heq
      cases heq
      rfl
    rw [← List.mem_map_of_injective hinj, hmap, hc.next_mem ht, JmpState.edge, Target.block_eq_some]
    rfl
  · intro u hu n
    rw [Ne, hc.null u hu n, JmpState.edge, Target.block_eq_none, not_forall]
    exact exists_congr fun t => not_not

/-- **The lists are exact.** Whatever is linked, chained, unchained, invalidated and flushed, from
any contents of memory: the list of each live block enumerates the jumps of live blocks that are
patched to it; the next operation returns; and once a block is invalidated, no live block jumps to
it. -/
theorem lists_exact {cell : JmpLink → Option JmpLink} {target : ℕ → Fin 2 → Target}
    {ops : List JmpOp} {s : JmpState}
    (h : Runs.run jmpStep (initJmpState cell target) ops = some s) :
    ListsExact s s.live ∧ (∀ op : JmpOp, op.Enabled s → ∃ s', jmpStep s op = some s') ∧
      ∀ t s', jmpStep s (.tbPhysInvalidate t) = some s' →
        ∀ u ∈ s'.live, ∀ n, s'.target u n ≠ .code t := by
  have hs := allChained_of_run h
  refine ⟨hs.listsExact, fun op hop => ?_, fun t s' hstep u hu n htarget => ?_⟩
  · obtain ⟨s', hstep, -⟩ := hs.step hop
    exact ⟨s', hstep⟩
  · have ht := enabled_of_jmpStep hstep
    obtain ⟨lists, hc⟩ := hs
    obtain ⟨s'', lists', hrun, hlive, hc'⟩ := hc.tbPhysInvalidate_eq ht
    obtain rfl : s'' = s' := by
      rw [jmpStep, if_pos ht] at hstep
      exact some.inj (hrun.symm.trans hstep)
    have hin := hc'.closed u hu n t (Target.block_eq_some.mpr htarget)
    rw [hlive] at hin
    exact notMem_erase t _ hin

/-- Two blocks with two jumps each, in memory without contents, and what is done to them then. -/
def runOfTwo (ops : List JmpOp) : Option JmpState :=
  Runs.run jmpStep (initJmpState (fun _ => none) fun _ _ => .absent)
    ([.tbLinkPage 0 fun _ => true, .tbLinkPage 1 fun _ => true] ++ ops)

/-- Both jumps of block 0 and one of block 1 lead to block 1, and the lists are exact. -/
theorem lists_exact_with_self_loop :
    ∃ s, runOfTwo [.tbAddJump 0 0 1, .tbAddJump 0 1 1, .tbAddJump 1 0 1] = some s ∧
      s.cell (.first 1) = some (.next 1 0) ∧ s.cell (.next 1 0) = some (.next 0 1) ∧
      s.cell (.next 0 1) = some (.next 0 0) ∧ s.cell (.next 0 0) = some (.first 1) ∧
      ListsExact s s.live ∧ ∃ s', jmpStep s (.tbPhysInvalidate 1) = some s' ∧
        ∀ u ∈ s'.live, ∀ n, s'.target u n ≠ .code 1 := by
  refine Runs.exists_of_map
    (fun s => (s.cell (.first 1), s.cell (.next 1 0), s.cell (.next 0 1),
    s.cell (.next 0 0), s.live))
    (some (.next 1 0), some (.next 0 1), some (.next 0 0), some (.first 1), {0, 1}) (by decide)
    fun s hs heq => ?_
  simp only [Prod.mk.injEq] at heq
  obtain ⟨h₁, h₂, h₃, h₄, hlive⟩ := heq
  obtain ⟨hexact, hreturns, hgone⟩ := lists_exact hs
  have hlive₁ : 1 ∈ s.live := hlive ▸ by decide
  obtain ⟨s', hs'⟩ := hreturns (.tbPhysInvalidate 1) hlive₁
  exact ⟨h₁, h₂, h₃, h₄, hexact, s', hs', hgone 1 s' hs'⟩

/-- An invalidated block is taken off the lists, but its own jumps stay as they are. Block 0 jumps
to block 1, is invalidated, and then is a block whose jump is patched and on no list, even when
block 1 is invalidated as well. -/
theorem dead_block_still_jumps :
    ∃ s, runOfTwo [.tbAddJump 0 0 1, .tbPhysInvalidate 0] = some s ∧
      1 ∈ s.live ∧ s.target 0 0 = .code 1 ∧ s.cell (.first 1) = some (.first 1) ∧
      ¬ ListsExact s {0, 1} ∧ ∃ s', jmpStep s (.tbPhysInvalidate 1) = some s' ∧
        s'.target 0 0 = .code 1 := by
  refine Runs.exists_of_map (fun s => (s.live, s.target 0 0, s.cell (.first 1), s.cell (.next 0 0),
    (jmpStep s (.tbPhysInvalidate 1)).map fun s' => s'.target 0 0))
    ({1}, .code 1, some (.first 1), none, some (.code 1)) (by decide) fun s hs heq => ?_
  simp only [Prod.mk.injEq] at heq
  obtain ⟨hlive, htarget, hfirst, hnull, hafter⟩ := heq
  refine ⟨hlive ▸ by decide, htarget, hfirst, fun hexact => ?_, ?_⟩
  · exact (hexact.2 0 (by simp) 0).mpr ⟨1, htarget⟩ hnull
  · exact map_eq_some_iff.mp hafter

end VariabilityTestbed.Exec
