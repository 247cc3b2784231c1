import Mathlib.Data.List.Nodup

/-!
# Linked lists with heads in a table

Intrusive lists that end with `NULL`: a cell holds a node or nothing, each node has one field, and
a field is a cell. The lists start in the cells of a table of heads. The same cell type serves both,
because the code that searches a list keeps a pointer to a cell and does not know whether it points
into the table or into a node.

`Seg` follows a list for a while and `Chain` follows it to its end. `Filed` is what a program keeps
invariant: every node that has a key is on the list of its key, once, and no other node is on any
list. That no node is on two lists needs no clause of its own, since a node has only one key.
-/

namespace VariabilityTestbed.Chains

open Function List Option

variable {κ α ι : Type*}

/-- Starting in cell `k`, memory leads through the nodes `l`. -/
def Seg (cell : κ → Option α) (field : α → κ) : κ → List α → Prop
  | _, [] => True
  | k, a :: l => cell k = some a ∧ Seg cell field (field a) l

/-- The cell behind the last of the nodes `l`, or `k` when there is none. -/
def lastCell (field : α → κ) : κ → List α → κ
  | k, [] => k
  | _, a :: l => lastCell field (field a) l

/-- The list that starts in cell `k` consists of the nodes `l`. -/
def Chain (cell : κ → Option α) (field : α → κ) (k : κ) (l : List α) : Prop :=
  Seg cell field k l ∧ cell (lastCell field k l) = none

variable {cell cell' : κ → Option α} {field : α → κ} {k : κ} {a : α} {l l₁ l₂ : List α}

@[simp] theorem lastCell_append :
    lastCell field k (l₁ ++ l₂) = lastCell field (lastCell field k l₁) l₂ := by
  induction l₁ generalizing k with
  | nil => rfl
  | cons b l₁ ih => exact ih

theorem seg_append :
    Seg cell field k (l₁ ++ l₂) ↔ Seg cell field k l₁ ∧
    Seg cell field (lastCell field k l₁) l₂ := by
  induction l₁ generalizing k with
  | nil => exact ⟨fun h => ⟨trivial, h⟩, And.right⟩
  | cons b l₁ ih =>
    show cell k = some b ∧ Seg cell field (field b) (l₁ ++ l₂) ↔ _
    rw [ih, ← and_assoc]
    rfl

theorem chain_nil : Chain cell field k [] ↔ cell k = none := ⟨And.right, fun h => ⟨trivial, h⟩⟩

theorem chain_cons :
    Chain cell field k (a :: l) ↔ cell k = some a ∧ Chain cell field (field a) l := and_assoc

theorem chain_append :
    Chain cell field k (l₁ ++ l₂) ↔
      Seg cell field k l₁ ∧ Chain cell field (lastCell field k l₁) l₂ := by
  rw [Chain, Chain, seg_append, lastCell_append, and_assoc]

theorem lastCell_mem : lastCell field k l ∈ k :: l.map field := by
  induction l generalizing k with
  | nil => exact .head _
  | cons b l ih => exact .tail _ ih

/-- **Frame.** Only the cells in front of the nodes matter. -/
theorem Seg.congr (h : Seg cell field k l) (hsame : ∀ c ∈ k :: l.map field, cell' c = cell c) :
    Seg cell' field k l := by
  induction l generalizing k with
  | nil => trivial
  | cons b l ih =>
    refine ⟨(hsame k (.head _)).trans h.1, ih h.2 fun c hc => ?_⟩
    exact hsame c (.tail _ hc)

theorem Chain.congr (h : Chain cell field k l)
    (hsame : ∀ c ∈ k :: l.map field, cell' c = cell c) : Chain cell' field k l :=
  ⟨h.1.congr hsame, (hsame _ lastCell_mem).trans h.2⟩

/-- The same list from another cell that holds the same. -/
theorem Chain.congr_start {k' : κ} (h : Chain cell field k l) (hk : cell' k' = cell k)
    (hsame : ∀ c ∈ l.map field, cell' c = cell c) : Chain cell' field k' l := by
  cases l with
  | nil => exact chain_nil.mpr (hk.trans (chain_nil.mp h))
  | cons b l =>
    have h := chain_cons.mp h
    exact chain_cons.mpr ⟨hk.trans h.1, h.2.congr hsame⟩

/-- The nodes up to a cell do not depend on what that cell holds. -/
theorem Seg.update_lastCell [DecidableEq κ] (h : Seg cell field k l)
    (hnodup : (k :: l.map field).Nodup) (x : Option α) :
    Seg (update cell (lastCell field k l) x) field k l := by
  induction l generalizing k with
  | nil => trivial
  | cons b l ih =>
    obtain ⟨hk, hnodup'⟩ := nodup_cons.mp hnodup
    refine ⟨?_, ih h.2 hnodup'⟩
    rw [update_of_ne, h.1]
    exact fun heq => hk (heq ▸ lastCell_mem)

/-- A list is determined by the cell that it starts in. -/
theorem Chain.unique (h₁ : Chain cell field k l₁) (h₂ : Chain cell field k l₂) : l₁ = l₂ := by
  induction l₁ generalizing k l₂ with
  | nil =>
    cases l₂ with
    | nil => rfl
    | cons b l₂ => exact absurd ((chain_nil.mp h₁).symm.trans (chain_cons.mp h₂).1) nofun
  | cons a l₁ ih =>
    have h₁ := chain_cons.mp h₁
    cases l₂ with
    | nil => exact absurd (h₁.1.symm.trans (chain_nil.mp h₂)) nofun
    | cons b l₂ =>
      have h₂ := chain_cons.mp h₂
      obtain rfl : a = b := some.inj (h₁.1.symm.trans h₂.1)
      rw [ih h₁.2 h₂.2]

/-- **A node in the middle of a list**: `a->field = *pt; *pt = a`. -/
theorem Chain.insert [DecidableEq κ] (h : Chain cell field k (l₁ ++ l₂))
    (hnodup : (k :: (l₁ ++ l₂).map field).Nodup) (ha : field a ∉ k :: (l₁ ++ l₂).map field) :
    Chain (update (update cell (field a) (cell (lastCell field k l₁)))
      (lastCell field k l₁) (some a)) field k (l₁ ++ a :: l₂) := by
  rw [map_append, ← cons_append] at hnodup ha
  obtain ⟨hfront, -, hdisj⟩ := nodup_append.mp hnodup
  obtain ⟨hseg, hrest⟩ := chain_append.mp h
  have hlast : lastCell field k l₁ ∈ k :: l₁.map field := lastCell_mem
  have hne : field a ≠ lastCell field k l₁ := fun heq => ha (heq ▸ mem_append_left _ hlast)
  refine chain_append.mpr ⟨Seg.update_lastCell (hseg.congr fun c hc => ?_) hfront _, chain_cons.mpr
    ⟨update_self .., hrest.congr_start ?_ fun c hc => ?_⟩⟩
  · exact update_of_ne (by rintro rfl; exact ha (mem_append_left _ hc)) _ _
  · rw [update_of_ne hne, update_self]
  · rw [update_of_ne fun heq => hdisj _ hlast c hc heq.symm,
      update_of_ne (by rintro rfl; exact ha (mem_append_right _ hc))]

/-- **A node less**: `*pt = a->field`. -/
theorem Chain.unlink [DecidableEq κ] (h : Chain cell field k (l₁ ++ a :: l₂))
    (hnodup : (k :: (l₁ ++ a :: l₂).map field).Nodup) :
    Chain (update cell (lastCell field k l₁) (cell (field a))) field k (l₁ ++ l₂) := by
  rw [map_append, ← cons_append] at hnodup
  obtain ⟨hfront, -, hdisj⟩ := nodup_append.mp hnodup
  obtain ⟨hseg, hrest⟩ := chain_append.mp h
  have hlast : lastCell field k l₁ ∈ k :: l₁.map field := lastCell_mem
  refine chain_append.mpr ⟨hseg.update_lastCell hfront _, ?_⟩
  refine (chain_cons.mp hrest).2.congr_start (update_self ..) fun c hc => ?_
  refine update_of_ne (fun heq => ?_) _ _
  exact hdisj _ hlast c (.tail _ hc) heq.symm

/-! ### Searching -/

/-- The first cell from `k` on that holds nothing, or a node at which the search is to stop. -/
def seek (cell : κ → Option α) (field : α → κ) (stop : α → Bool) : ℕ → κ → Option κ
  | 0, _ => none
  | fuel + 1, k =>
    match cell k with
    | none => some k
    | some a => if stop a then some k else seek cell field stop fuel (field a)

/-- **The search ends** behind the nodes that it passes over, if there is a reason to stop there and
enough fuel. -/
theorem seek_eq_some {stop : α → Bool} {fuel : ℕ} (h : Seg cell field k l)
    (hpass : ∀ a ∈ l, stop a = false) (hstop : ∀ a, cell (lastCell field k l) = some a → stop a)
    (hfuel : l.length < fuel) : seek cell field stop fuel k = some (lastCell field k l) := by
  induction l generalizing k fuel with
  | nil =>
    obtain ⟨n, rfl⟩ := Nat.exists_eq_add_one.mpr hfuel
    have hstop : ∀ a, cell k = some a → stop a := hstop
    rw [seek]
    split
    · rfl
    next a ha => rw [if_pos (hstop a ha)]; rfl
  | cons b l ih =>
    obtain ⟨n, rfl⟩ := Nat.exists_eq_add_one.mpr (Nat.zero_lt_of_lt hfuel)
    have hb : stop b = false := hpass b (.head _)
    have hrest := ih h.2 (fun a ha => hpass a (.tail _ ha)) hstop (Nat.lt_of_succ_lt_succ hfuel)
    simp only [seek, h.1, hb, Bool.false_eq_true, if_false]
    exact hrest

/-- The search stops at the first node that it is to stop at. -/
theorem Chain.seek_found {stop : α → Bool} {fuel : ℕ} (h : Chain cell field k (l₁ ++ a :: l₂))
    (hpass : ∀ b ∈ l₁, stop b = false) (hstop : stop a = true) (hfuel : l₁.length < fuel) :
    seek cell field stop fuel k = some (lastCell field k l₁) ∧
      cell (lastCell field k l₁) = some a := by
  obtain ⟨hseg, hrest⟩ := chain_append.mp h
  have ha := (chain_cons.mp hrest).1
  refine ⟨seek_eq_some hseg hpass (fun b hb => ?_) hfuel, ha⟩
  rwa [← some.inj (ha.symm.trans hb)]

/-- The search goes to the end of a list with no node to stop at. -/
theorem Chain.seek_end {stop : α → Bool} {fuel : ℕ} (h : Chain cell field k l)
    (hpass : ∀ b ∈ l, stop b = false) (hfuel : l.length < fuel) :
    seek cell field stop fuel k = some (lastCell field k l) := by
  refine seek_eq_some h.1 hpass (fun b hb => ?_) hfuel
  exact absurd (h.2.symm.trans hb) nofun

/-- A list is searched up to its first node with a property, or has no such node. -/
theorem exists_first (stop : α → Bool) (l : List α) :
    (∀ a ∈ l, stop a = false) ∨
      ∃ l₁ a l₂, l = l₁ ++ a :: l₂ ∧ (∀ b ∈ l₁, stop b = false) ∧ stop a = true := by
  induction l with
  | nil => exact .inl nofun
  | cons b l ih =>
    cases hb : stop b with
    | true => exact .inr ⟨[], b, l, rfl, nofun, hb⟩
    | false =>
      rcases ih with hall | ⟨l₁, a, l₂, rfl, hpass, ha⟩
      · exact .inl (forall_mem_cons.mpr ⟨hb, hall⟩)
      · exact .inr ⟨b :: l₁, a, l₂, rfl, forall_mem_cons.mpr ⟨hb, hpass⟩, ha⟩

/-! ### Lists that classify nodes -/

/-- The heads and the fields are different cells. -/
structure Layout (head : ι → κ) (field : α → κ) : Prop where
  head_injective : Injective head
  field_injective : Injective field
  head_ne_field : ∀ i a, head i ≠ field a

/-- **Every node with a key is on the list of its key.** -/
structure Filed (cell : κ → Option α) (head : ι → κ) (field : α → κ) (key : α → Option ι)
    (lists : ι → List α) : Prop where
  chain : ∀ i, Chain cell field (head i) (lists i)
  nodup : ∀ i, (lists i).Nodup
  mem : ∀ i a, a ∈ lists i ↔ key a = some i

namespace Filed

variable {head : ι → κ} {key key' : α → Option ι} {lists : ι → List α} {i : ι}

/-- Membership in a list that is reached from a head. -/
theorem exists_mem_iff (h : Filed cell head field key lists) (i : ι) (a : α) :
    (∃ l, Chain cell field (head i) l ∧ a ∈ l) ↔ key a = some i := by
  rw [← h.mem i a]
  constructor
  · rintro ⟨l, hl, ha⟩
    rwa [hl.unique (h.chain i)] at ha
  · exact fun ha => ⟨_, h.chain i, ha⟩

/-- Heads that all hold nothing are lists of no nodes. -/
theorem empty (hhead : ∀ i, cell (head i) = none) (hkey : ∀ a, key a = none) :
    Filed cell head field key fun _ => [] where
  chain := fun i => chain_nil.mpr (hhead i)
  nodup := fun _ => nodup_nil
  mem := by
    intro i a
    rw [hkey a]
    exact iff_of_false not_mem_nil nofun

/-- The cells that a list runs through are different. -/
theorem nodup_cells (hl : Layout head field) (h : Filed cell head field key lists) (i : ι) :
    (head i :: (lists i).map field).Nodup := by
  refine nodup_cons.mpr ⟨fun hmem => ?_, (h.nodup i).map hl.field_injective⟩
  obtain ⟨a, -, ha⟩ := List.mem_map.mp hmem
  exact hl.head_ne_field i a ha.symm

/-- No cell belongs to two lists. -/
theorem not_mem_cells (hl : Layout head field) (h : Filed cell head field key lists) {i j : ι}
    (hij : j ≠ i) {c : κ} (hc : c ∈ head i :: (lists i).map field) :
    c ∉ head j :: (lists j).map field := by
  intro hc'
  rcases mem_cons.mp hc with rfl | hc
  · rcases mem_cons.mp hc' with heq | hc'
    · exact hij (hl.head_injective heq).symm
    · obtain ⟨b, -, hb⟩ := List.mem_map.mp hc'
      exact hl.head_ne_field i b hb.symm
  · obtain ⟨a, ha, rfl⟩ := List.mem_map.mp hc
    rcases mem_cons.mp hc' with heq | hc'
    · exact hl.head_ne_field j a heq.symm
    · obtain ⟨b, hb, heq⟩ := List.mem_map.mp hc'
      obtain rfl := hl.field_injective heq
      exact hij (some.inj (((h.mem j b).mp hb).symm.trans ((h.mem i b).mp ha)))

variable [DecidableEq κ] [DecidableEq α] [DecidableEq ι]

/-- **A node in front of a list**: `a->field = *head; *head = a`. -/
theorem push (hl : Layout head field) (h : Filed cell head field key lists)
    (ha : key a = none) (i : ι) :
    Filed (update (update cell (field a) (cell (head i))) (head i) (some a)) head
      field (update key a (some i)) (update lists i (a :: lists i)) where
  chain := by
    intro j
    have hfresh : ∀ j b, b ∈ lists j → field b ≠ field a := by
      intro j b hb heq
      obtain rfl := hl.field_injective heq
      exact absurd (ha.symm.trans ((h.mem j b).mp hb)) nofun
    have hold : ∀ j, ∀ c ∈ (lists j).map field, update (update cell (field a)
        (cell (head i))) (head i) (some a) c = cell c := by
      intro j c hc
      obtain ⟨b, hb, rfl⟩ := List.mem_map.mp hc
      rw [update_of_ne (hl.head_ne_field i b).symm, update_of_ne (hfresh j b hb)]
    by_cases hij : j = i
    · subst hij
      rw [update_self]
      refine chain_cons.mpr ⟨update_self .., ?_⟩
      -- the field of the new node takes the place of the head
      have hfield : update (update cell (field a) (cell (head j))) (head j)
          (some a) (field a) = cell (head j) := by
        rw [update_of_ne (hl.head_ne_field j a).symm, update_self]
      exact (h.chain j).congr_start hfield (hold j)
    · rw [update_of_ne hij]
      refine (h.chain j).congr fun c hc => ?_
      rcases mem_cons.mp hc with rfl | hc
      · rw [update_of_ne fun heq => hij (hl.head_injective heq),
          update_of_ne (hl.head_ne_field j a)]
      · exact hold j c hc
  nodup := by
    intro j
    by_cases hij : j = i
    · subst hij
      rw [update_self]
      refine nodup_cons.mpr ⟨fun hmem => ?_, h.nodup j⟩
      exact absurd (ha.symm.trans ((h.mem j a).mp hmem)) nofun
    · rw [update_of_ne hij]
      exact h.nodup j
  mem := by
    intro j b
    by_cases hij : j = i
    · subst hij
      rw [update_self, mem_cons]
      by_cases hb : b = a
      · subst hb
        simp
      · rw [update_of_ne hb, h.mem j b]
        exact or_iff_right hb
    · rw [update_of_ne hij, h.mem j b]
      by_cases hb : b = a
      · subst hb
        rw [ha, update_self]
        exact iff_of_false nofun fun heq => hij (some.inj heq).symm
      · rw [update_of_ne hb]

/-- **A node less**: what `a->field` holds is put into the cell in front of `a`. -/
theorem remove (hl : Layout head field) (h : Filed cell head field key lists)
    (hi : lists i = l₁ ++ a :: l₂) :
    Filed (update cell (lastCell field (head i) l₁) (cell (field a))) head field
      (update key a none) fun j => (lists j).filter (· ≠ a) := by
  have hai : key a = some i := (h.mem i a).mp (hi ▸ mem_append_right _ (.head _))
  have hother : ∀ j, j ≠ i → (lists j).filter (· ≠ a) = lists j := by
    intro j hij
    refine filter_eq_self.mpr fun b hb => decide_eq_true fun heq => hij ?_
    exact some.inj (((h.mem j b).mp hb).symm.trans (heq ▸ hai))
  have hnodup : (l₁ ++ a :: l₂).Nodup := hi ▸ h.nodup i
  have hself : (lists i).filter (· ≠ a) = l₁ ++ l₂ := by
    have hnot := (nodup_cons.mp (nodup_middle.mp hnodup)).1
    rw [hi, filter_append, filter_cons_of_neg (by simp), ← filter_append]
    exact filter_eq_self.mpr fun b hb => decide_eq_true fun heq => hnot (heq ▸ hb)
  have hcells : ((head i :: l₁.map field) ++ field a :: l₂.map field).Nodup := by
    have hcells := h.nodup_cells hl i
    rw [hi, map_append] at hcells
    exact hcells
  have hlast : lastCell field (head i) l₁ ∈ head i :: l₁.map field := lastCell_mem
  refine ⟨fun j => ?_, fun j => (h.nodup j).filter _, fun j b => ?_⟩
  · by_cases hij : j = i
    · subst hij
      show Chain _ field (head j) ((lists j).filter (· ≠ a))
      rw [hself]
      have hchain := h.chain j
      rw [hi] at hchain
      refine hchain.unlink ?_
      rw [map_append]
      exact hcells
    · show Chain _ field (head j) ((lists j).filter (· ≠ a))
      rw [hother j hij]
      refine (h.chain j).congr fun c hc => update_of_ne (fun heq => ?_) _ _
      refine h.not_mem_cells hl hij ?_ (heq ▸ hc)
      rw [hi, map_append]
      exact mem_append_left ((a :: l₂).map field) hlast
  · show b ∈ (lists j).filter (· ≠ a) ↔ _
    rw [mem_filter, h.mem j b]
    by_cases hb : b = a
    · subst hb
      simp
    · simp [hb]

end Filed

end VariabilityTestbed.Chains
