import Mathlib.Data.List.Nodup
import Mathlib.Data.Set.Insert

/-!
# Rings threaded through a successor map

Intrusive circular lists: a memory of cells, each of which holds the name of another cell or
nothing. A *ring* starts at its head, runs through its elements and comes back to the head. Many
rings can share one memory, as long as no cell is on two of them.

`Path` is the only relation with memory in it. Everything that is changed in a ring is changed in
one or two cells, so each operation comes with one lemma that says which path results, and the
frame condition is always the same: a path does not notice a change outside of it.

`Family` is what a program keeps invariant: a set of heads, for each of them the list of its
elements, and no cell on two rings. The operations are `Family.new`, `Family.push`,
`Family.remove`, `Family.clear` and `Family.mono`.
-/

namespace VariabilityTestbed.Rings

open Function List

variable {α : Type*}

/-- Starting at `a`, the memory leads through the cells `l` to `b`. -/
def Path (succ : α → Option α) : α → List α → α → Prop
  | a, [], b => succ a = some b
  | a, x :: l, b => succ a = some x ∧ Path succ x l b

variable {succ succ' : α → Option α} {a b x : α} {l l₁ l₂ : List α}

theorem path_append : Path succ a (l₁ ++ x :: l₂) b ↔ Path succ a l₁ x ∧ Path succ x l₂ b := by
  induction l₁ generalizing a with
  | nil => rfl
  | cons y l₁ ih =>
    show succ a = some y ∧ Path succ y (l₁ ++ x :: l₂) b ↔ _
    rw [ih, ← and_assoc]
    rfl

/-- A ring can be walked from each of its cells. -/
theorem Path.rotate (h : Path succ a l a) (hl : a :: l = l₁ ++ x :: l₂) :
    Path succ x (l₂ ++ l₁) x := by
  cases l₁ with
  | nil =>
    cases hl
    rw [append_nil]
    exact h
  | cons y l₁ =>
    cases hl
    obtain ⟨h₁, h₂⟩ := path_append.mp h
    exact path_append.mpr ⟨h₂, h₁⟩

/-- **Frame.** A path depends on what its first cell holds and on the cells it leads through, and
on nothing else. -/
theorem Path.congr_start (h : Path succ a l b) (hx : succ' x = succ a)
    (hsame : ∀ y ∈ l, succ' y = succ y) : Path succ' x l b := by
  induction l generalizing a x with
  | nil => exact hx.trans h
  | cons y l ih =>
    refine ⟨hx.trans h.1, ih h.2 (hsame y (.head _)) fun z hz => ?_⟩
    exact hsame z (.tail _ hz)

theorem Path.congr (h : Path succ a l b) (hsame : ∀ y ∈ a :: l, succ' y = succ y) :
    Path succ' a l b :=
  h.congr_start (hsame a (.head _)) fun y hy => hsame y (.tail _ hy)

theorem Path.exists_succ (h : Path succ a l b) : ∃ x, succ a = some x := by
  cases l with
  | nil => exact ⟨b, h⟩
  | cons y l => exact ⟨y, h.1⟩

variable [DecidableEq α]

/-- Changing the last cell of a path changes where it ends. -/
theorem Path.relink (h : Path succ a l b) (hnodup : (a :: l).Nodup) (c : α) :
    Path (update succ ((a :: l).getLast (cons_ne_nil _ _)) (some c)) a l c := by
  induction l generalizing a with
  | nil => exact update_self ..
  | cons y l ih =>
    obtain ⟨hy, hnodup'⟩ := nodup_cons.mp hnodup
    have hlast : (a :: y :: l).getLast (cons_ne_nil _ _) =
        (y :: l).getLast (cons_ne_nil _ _) := getLast_cons _
    have hne : a ≠ (y :: l).getLast (cons_ne_nil _ _) := by
      intro heq
      exact hy (heq ▸ getLast_mem _)
    rw [hlast]
    exact ⟨(update_of_ne hne _ _).trans h.1, ih h.2 hnodup'⟩

/-! ### Searching -/

/-- Follow the memory from `a` until the next cell is `x`. The search gives up at an empty cell,
and at a cell that is not `ok` to go on from. -/
def findPred (succ : α → Option α) (ok : α → Bool) (x : α) : ℕ → α → Option α
  | 0, _ => none
  | fuel + 1, a =>
    match succ a with
    | none => none
    | some y => if y = x then some a else if ok y then findPred succ ok x fuel y else none

/-- **The search ends**, if the cells on the way are all right and there is enough fuel. -/
theorem findPred_eq_some {ok : α → Bool} {fuel : ℕ} (h : Path succ a l x) (hx : x ∉ l)
    (hok : ∀ y ∈ l, ok y = true) (hfuel : l.length < fuel) :
    findPred succ ok x fuel a = some ((a :: l).getLast (cons_ne_nil _ _)) := by
  induction l generalizing a fuel with
  | nil =>
    obtain ⟨n, rfl⟩ := Nat.exists_eq_add_one.mpr hfuel
    have ha : succ a = some x := h
    simp [findPred, ha]
  | cons y l ih =>
    obtain ⟨n, rfl⟩ := Nat.exists_eq_add_one.mpr (Nat.zero_lt_of_lt hfuel)
    have hne : y ≠ x := fun heq => hx (heq ▸ mem_cons_self)
    have hih := ih h.2 (fun hmem => hx (.tail _ hmem))
      (fun z hz => hok z (.tail _ hz)) (Nat.lt_of_succ_lt_succ hfuel)
    rw [getLast_cons (cons_ne_nil _ _), ← hih]
    simp [findPred, h.1, hne, hok y mem_cons_self]

/-- What the search finds is a cell that holds the one looked for. -/
theorem succ_of_findPred {ok : α → Bool} {fuel : ℕ} {p : α}
    (h : findPred succ ok x fuel a = some p) : succ p = some x := by
  induction fuel generalizing a with
  | zero => cases h
  | succ fuel ih =>
    rw [findPred] at h
    split at h
    · cases h
    next y hy =>
      split at h
      next heq =>
        cases h
        rw [hy, heq]
      next =>
        split at h
        · exact ih h
        · cases h

/-! ### Taking a cell out -/

/-- Taking `x` out of a path: the cell in front of `x` gets what `x` held, and `x` is emptied. -/
theorem Path.remove (h : Path succ a (l₁ ++ x :: l₂) b) (hnodup : (a :: (l₁ ++ x :: l₂)).Nodup) :
    Path (update (update succ ((a :: l₁).getLast (cons_ne_nil _ _)) (succ x))
      x none) a (l₁ ++ l₂) b := by
  obtain ⟨hfront, hback⟩ := path_append.mp h
  have hsplit : (a :: l₁ ++ x :: l₂).Nodup := hnodup
  obtain ⟨hnodup₁, hnodup₂, hdisj⟩ := nodup_append'.mp hsplit
  obtain ⟨hx, -⟩ := nodup_cons.mp hnodup₂
  have hxfront : x ∉ a :: l₁ := fun hmem => hdisj hmem (.head _)
  have hlast : (a :: l₁).getLast (cons_ne_nil _ _) ∈ a :: l₁ := getLast_mem _
  -- the cells behind `x` are neither `x` nor the one in front of it
  have hrest : ∀ y ∈ l₂, update (update succ
      ((a :: l₁).getLast (cons_ne_nil _ _)) (succ x)) x none y = succ y := by
    intro y hy
    have hyx : y ≠ x := fun heq => hx (heq ▸ hy)
    have hylast : y ≠ (a :: l₁).getLast (cons_ne_nil _ _) := fun heq =>
      hdisj (heq ▸ hlast) (.tail _ hy)
    rw [update_of_ne hyx, update_of_ne hylast]
  have hrelinked : ∀ c, succ x = some c → Path (update (update succ
      ((a :: l₁).getLast (cons_ne_nil _ _)) (succ x)) x none) a l₁ c := by
    intro c hc
    rw [hc]
    refine (hfront.relink hnodup₁ c).congr fun y hy => ?_
    have hyx : y ≠ x := fun heq => hxfront (heq ▸ hy)
    exact update_of_ne hyx _ _
  cases l₂ with
  | nil =>
    rw [append_nil]
    exact hrelinked b hback
  | cons y l₂ => exact path_append.mpr ⟨hrelinked y hback.1, hback.2.congr hrest⟩

/-! ### Rings that share a memory -/

/-- For each head the list of its elements. No cell is on two rings. -/
structure Family (succ : α → Option α) (heads : Set α) (lists : α → List α) : Prop where
  ring : ∀ h ∈ heads, Path succ h (lists h) h
  nodup : ∀ h ∈ heads, (h :: lists h).Nodup
  disjoint : ∀ h ∈ heads, ∀ h' ∈ heads, ∀ y ∈ h :: lists h, y ∈ h' :: lists h' → h = h'

variable {heads heads' : Set α} {lists : α → List α} {h : α}

omit [DecidableEq α] in
/-- Any memory is a memory without rings. -/
theorem Family.empty (succ : α → Option α) (lists : α → List α) : Family succ ∅ lists where
  ring := fun h hh => absurd hh (Set.notMem_empty h)
  nodup := fun h hh => absurd hh (Set.notMem_empty h)
  disjoint := fun h hh => absurd hh (Set.notMem_empty h)

section

variable (hF : Family succ heads lists)
include hF

omit [DecidableEq α] in
/-- Rings can be forgotten. -/
theorem Family.mono (hsub : heads' ⊆ heads) : Family succ heads' lists where
  ring := fun h hh => hF.ring h (hsub hh)
  nodup := fun h hh => hF.nodup h (hsub hh)
  disjoint := fun h hh h' hh' => hF.disjoint h (hsub hh) h' (hsub hh')

/-- **Changing one ring**, or adding it. The other rings must not share a cell with it, and must
not have been touched. -/
theorem Family.set (hring : Path succ' h l h) (hnodup : (h :: l).Nodup)
    (hfresh : ∀ h' ∈ heads, h' ≠ h → ∀ y ∈ h :: l, y ∉ h' :: lists h')
    (hsame : ∀ h' ∈ heads, h' ≠ h → ∀ y ∈ h' :: lists h', succ' y = succ y) :
    Family succ' (insert h heads) (update lists h l) := by
  have hother : ∀ h', h' ≠ h → update lists h l h' = lists h' := fun h' hne => update_of_ne hne _ _
  have hthis : update lists h l h = l := update_self ..
  constructor
  · rintro h' hh'
    by_cases hne : h' = h
    · rw [hne, hthis]
      exact hring
    · have hin := Set.mem_of_mem_insert_of_ne hh' hne
      rw [hother h' hne]
      exact (hF.ring h' hin).congr (hsame h' hin hne)
  · rintro h' hh'
    by_cases hne : h' = h
    · rw [hne, hthis]
      exact hnodup
    · rw [hother h' hne]
      exact hF.nodup h' (Set.mem_of_mem_insert_of_ne hh' hne)
  · intro h₁ hh₁ h₂ hh₂ y hy₁ hy₂
    by_cases hne₁ : h₁ = h
    · by_cases hne₂ : h₂ = h
      · rw [hne₁, hne₂]
      · rw [hne₁, hthis] at hy₁
        rw [hother h₂ hne₂] at hy₂
        exact absurd hy₂ (hfresh h₂ (Set.mem_of_mem_insert_of_ne hh₂ hne₂) hne₂ y hy₁)
    · have hin₁ := Set.mem_of_mem_insert_of_ne hh₁ hne₁
      rw [hother h₁ hne₁] at hy₁
      by_cases hne₂ : h₂ = h
      · rw [hne₂, hthis] at hy₂
        exact absurd hy₁ (hfresh h₁ hin₁ hne₁ y hy₂)
      · rw [hother h₂ hne₂] at hy₂
        exact hF.disjoint h₁ hin₁ h₂ (Set.mem_of_mem_insert_of_ne hh₂ hne₂) y hy₁ hy₂

/-- A new ring, without elements. -/
theorem Family.new (hfresh : ∀ h' ∈ heads, h ∉ h' :: lists h') (hhead : succ' h = some h)
    (hsame : ∀ h' ∈ heads, ∀ y ∈ h' :: lists h', succ' y = succ y) :
    Family succ' (insert h heads) (update lists h []) := by
  refine hF.set (l := []) hhead (nodup_singleton h) ?_ fun h' hh' _ => hsame h' hh'
  intro h' hh' _ y hy
  rw [mem_singleton.mp hy]
  exact hfresh h' hh'

/-- A new element at the front of a ring. -/
theorem Family.push (hh : h ∈ heads) (hfresh : ∀ h' ∈ heads, x ∉ h' :: lists h') :
    Family (update (update succ x (succ h)) h (some x)) heads
      (update lists h (x :: lists h)) := by
  have hxh : x ≠ h := fun heq => hfresh h hh (heq ▸ mem_cons_self)
  obtain ⟨hhl, hl⟩ := nodup_cons.mp (hF.nodup h hh)
  have hxl : x ∉ lists h := fun hmem => hfresh h hh (.tail _ hmem)
  have hsame : ∀ y, y ≠ x → y ≠ h →
      update (update succ x (succ h)) h (some x) y = succ y := by
    intro y hyx hyh
    rw [update_of_ne hyh, update_of_ne hyx]
  have hset : Family (update (update succ x (succ h)) h (some x))
      (insert h heads) (update lists h (x :: lists h)) := by
    refine hF.set ⟨update_self .., ?_⟩ ?_ ?_ ?_
    · refine (hF.ring h hh).congr_start ?_ fun y hy => ?_
      · rw [update_of_ne hxh, update_self]
      · exact hsame y (fun heq => hxl (heq ▸ hy)) fun heq => hhl (heq ▸ hy)
    · refine nodup_cons.mpr ⟨?_, nodup_cons.mpr ⟨hxl, hl⟩⟩
      rintro (_ | ⟨_, hmem⟩)
      · exact hxh rfl
      · exact hhl hmem
    · intro h' hh' hne y hy hy'
      rcases mem_cons.mp hy with rfl | hy
      · exact hne (hF.disjoint h' hh' y hh y hy' (.head _))
      · rcases mem_cons.mp hy with rfl | hy
        · exact hfresh h' hh' hy'
        · exact hne (hF.disjoint h' hh' h hh y hy' (.tail _ hy))
    · intro h' hh' hne y hy
      refine hsame y (fun heq => hfresh h' hh' (heq ▸ hy)) fun heq => ?_
      exact hne (hF.disjoint h' hh' h hh h (heq ▸ hy) (.head _))
  rwa [Set.insert_eq_of_mem hh] at hset

/-- An element taken out of a ring. -/
theorem Family.remove (hh : h ∈ heads) (hlist : lists h = l₁ ++ x :: l₂) :
    Family (update (update succ
      ((h :: l₁).getLast (cons_ne_nil _ _)) (succ x)) x none) heads
      (update lists h (l₁ ++ l₂)) := by
  have hring := hF.ring h hh
  have hnodup := hF.nodup h hh
  rw [hlist] at hring hnodup
  have hx : x ∈ h :: lists h := by simp [hlist]
  have hlast : (h :: l₁).getLast (cons_ne_nil _ _) ∈ h :: lists h := by
    have hmem : (h :: l₁).getLast (cons_ne_nil _ _) ∈ h :: l₁ := getLast_mem _
    rw [hlist]
    exact mem_append_left (x :: l₂) hmem
  have hset : Family (update (update succ
      ((h :: l₁).getLast (cons_ne_nil _ _)) (succ x)) x none) (insert h heads)
      (update lists h (l₁ ++ l₂)) := by
    refine hF.set (hring.remove hnodup) ?_ ?_ ?_
    · exact hnodup.sublist
        (List.Sublist.cons_cons h (List.Sublist.append_left (sublist_cons_self x l₂) l₁))
    · intro h' hh' hne y hy hy'
      have hyold : y ∈ h :: lists h := by
        rw [hlist]
        rcases mem_cons.mp hy with rfl | hy
        · exact .head _
        · simp only [mem_cons, mem_append] at hy ⊢
          tauto
      exact hne (hF.disjoint h' hh' h hh y hy' hyold)
    · intro h' hh' hne y hy
      have hout : ∀ z ∈ h :: lists h, y ≠ z := by
        rintro z hz rfl
        exact hne (hF.disjoint h' hh' h hh y hy hz)
      rw [update_of_ne (hout x hx), update_of_ne (hout _ hlast)]
  rwa [Set.insert_eq_of_mem hh] at hset

/-- All elements taken out of a ring. -/
theorem Family.clear (hh : h ∈ heads) (hhead : succ' h = some h)
    (hsame : ∀ y, y ∉ h :: lists h → succ' y = succ y) :
    Family succ' heads (update lists h []) := by
  have hset : Family succ' (insert h heads) (update lists h []) := by
    refine hF.set (l := []) hhead (nodup_singleton h) ?_ ?_
    · intro h' hh' hne y hy hy'
      rw [mem_singleton.mp hy] at hy'
      exact hne (hF.disjoint h' hh' h hh h hy' (.head _))
    · intro h' hh' hne y hy
      exact hsame y fun hmem => hne (hF.disjoint h' hh' h hh y hy hmem)
  rwa [Set.insert_eq_of_mem hh] at hset

/-- The search for the cell in front of an element, once around the ring from the element. -/
theorem Family.findPred_around (hh : h ∈ heads) (hlist : lists h = l₁ ++ x :: l₂) {fuel : ℕ}
    (hfuel : (lists h).length < fuel) :
    findPred succ (fun _ => true) x fuel x = some ((h :: l₁).getLast (cons_ne_nil _ _)) := by
  have hring := hF.ring h hh
  have hnodup := hF.nodup h hh
  rw [hlist] at hring hnodup hfuel
  obtain ⟨hfront, hback⟩ := path_append.mp hring
  have haround : Path succ x (l₂ ++ h :: l₁) x := path_append.mpr ⟨hback, hfront⟩
  have hsplit : (h :: l₁ ++ x :: l₂).Nodup := hnodup
  obtain ⟨-, hnodup₂, hdisj⟩ := nodup_append'.mp hsplit
  have hx : x ∉ l₂ ++ h :: l₁ := by
    intro hmem
    rcases mem_append.mp hmem with hmem | hmem
    · exact (nodup_cons.mp hnodup₂).1 hmem
    · exact hdisj hmem (.head _)
  have hlength : (l₂ ++ h :: l₁).length < fuel := by
    simp only [length_append, length_cons] at hfuel ⊢
    omega
  rw [findPred_eq_some haround hx (fun _ _ => rfl) hlength]
  exact congrArg some (getLast_append_of_ne_nil (l := x :: l₂) (cons_ne_nil _ _) (cons_ne_nil h l₁))

/-- The same search from the head. -/
theorem Family.findPred_head (hh : h ∈ heads) (hlist : lists h = l₁ ++ x :: l₂) {ok : α → Bool}
    (hok : ∀ y ∈ lists h, ok y = true) {fuel : ℕ} (hfuel : (lists h).length < fuel) :
    findPred succ ok x fuel h = some ((h :: l₁).getLast (cons_ne_nil _ _)) := by
  have hring := hF.ring h hh
  have hnodup := hF.nodup h hh
  rw [hlist] at hring hnodup hfuel hok
  obtain ⟨-, hnodup⟩ := nodup_cons.mp hnodup
  have hx : x ∉ l₁ := fun hmem => (nodup_append'.mp hnodup).2.2 hmem (.head _)
  refine findPred_eq_some (path_append.mp hring).1 hx ?_ ?_
  · exact fun y hy => hok y (mem_append_left _ hy)
  · simp only [length_append, length_cons] at hfuel
    omega

end

end VariabilityTestbed.Rings
