import Mathlib.Data.Bool.Basic
import Mathlib.Data.List.Nodup
import Mathlib.Data.List.Perm.Basic

/-!
# Hash tables with chains

A table has a chain of entries for each value of a hash. An entry is in the chain of its own key,
and no key has two entries. The table is a finite map; a walk that goes along the chains, and finds
the next one from the key of the last entry, visits its entries in order.
-/

namespace VariabilityTestbed.HashChains

open List

variable {K V : Type}

section Chain

variable [DecidableEq K]

/-! ### One chain -/

/-- The first entry with a key. -/
def find (k : K) (c : List (K × V)) : Option (K × V) := c.find? fun e => decide (e.1 = k)

/-- Put a value into the first entry with a key. -/
def replace (k : K) (v : V) : List (K × V) → List (K × V)
  | [] => []
  | e :: c => if e.1 = k then (e.1, v) :: c else e :: replace k v c

/-- Take out the first entry with a key. -/
def remove (k : K) (c : List (K × V)) : List (K × V) := c.eraseP fun e => decide (e.1 = k)

variable {k k' : K} {v : V} {c : List (K × V)}

theorem map_fst_replace : (replace k v c).map Prod.fst = c.map Prod.fst := by
  fun_induction replace <;> simp_all

theorem find_replace : (find k' (replace k v c)).map Prod.snd =
    if k' = k ∧ (find k c).isSome then some v else (find k' c).map Prod.snd := by
  fun_induction replace <;> grind [find]

theorem find_remove (h : (c.map Prod.fst).Nodup) :
    find k' (remove k c) = if k' = k then none else find k' c := by
  induction c with
  | nil => simp [find, remove]
  | cons e c ih => grind [find, remove]

theorem find_eq_some_iff (h : (c.map Prod.fst).Nodup) :
    (find k c).map Prod.snd = some v ↔ (k, v) ∈ c := by
  induction c with
  | nil => simp [find]
  | cons e c ih => grind [find]

end Chain

/-! ### Tables -/

/-- A table in which an entry is in the chain that `bucket` gives for its key. -/
structure Table (V : Type) (bucket : K → ℕ) where
  chain : ℕ → List (K × V)
  placed : ∀ i, ∀ e ∈ chain i, bucket e.1 = i
  nodup : ∀ i, ((chain i).map Prod.fst).Nodup

namespace Table

variable {bucket : K → ℕ} {k k' : K} {v : V} (t : Table V bucket)

section Map

variable [DecidableEq K]

/-- The table without entries. -/
def empty : Table V bucket := ⟨fun _ => [], nofun, fun _ => List.nodup_nil⟩

/-- The entry of a key. -/
def lookup (k : K) : Option (K × V) := find k (t.chain (bucket k))

/-- The value of a key. -/
def get (k : K) : Option V := (t.lookup k).map Prod.snd

/-- Replace the value of a key that has one, else put a new entry at the head of its chain. -/
def put (k : K) (v : V) : Table V bucket where
  chain := Function.update t.chain (bucket k)
    (if (t.lookup k).isSome then replace k v (t.chain (bucket k)) else (k, v) :: t.chain (bucket k))
  placed := by
    intro i e he
    have hmem := List.mem_map_of_mem (f := Prod.fst) he
    have hp := t.placed i
    grind [Function.update_apply, map_fst_replace]
  nodup := by
    intro i
    have hn := t.nodup i
    grind [Function.update_apply, map_fst_replace, lookup, find]

/-- Take the entry of a key out. -/
def erase (k : K) : Table V bucket where
  chain := Function.update t.chain (bucket k) (remove k (t.chain (bucket k)))
  placed := by
    intro i e he
    have hp := t.placed i
    grind [Function.update_apply, remove, List.mem_of_mem_eraseP]
  nodup := by
    intro i
    rw [Function.update_apply]
    split_ifs
    · exact (List.eraseP_sublist.map Prod.fst).nodup (t.nodup _)
    · exact t.nodup i

theorem get_put : (t.put k v).get k' = if k' = k then some v else t.get k' := by
  have hr := @find_replace _ _ _ k k' v (t.chain (bucket k))
  simp only [get, lookup, put, Function.update_apply]
  grind [find]

theorem get_erase : (t.erase k).get k' = if k' = k then none else t.get k' := by
  have hr := @find_remove _ _ _ k k' _ (t.nodup (bucket k))
  simp only [get, lookup, erase, Function.update_apply]
  grind

end Map

/-! ### All entries -/

/-- The entries of `m` chains, from the `i`-th on. -/
def entriesFrom (m i : ℕ) : List (K × V) := (List.range' i m).flatMap t.chain

theorem entriesFrom_empty (m i : ℕ) : (empty : Table V bucket).entriesFrom m i = [] :=
  flatMap_eq_nil_iff.2 fun _ _ => rfl

variable {t}

theorem mem_entriesFrom {m i : ℕ} {e : K × V} :
    e ∈ t.entriesFrom m i ↔ (i ≤ bucket e.1 ∧ bucket e.1 < i + m) ∧ e ∈ t.chain (bucket e.1) := by
  simp only [entriesFrom, mem_flatMap, mem_range'_1]
  constructor
  · rintro ⟨j, hj, he⟩
    obtain rfl := t.placed j e he
    exact ⟨hj, he⟩
  · rintro ⟨hj, he⟩
    exact ⟨_, hj, he⟩

theorem nodup_entriesFrom (m i : ℕ) : ((t.entriesFrom m i).map Prod.fst).Nodup := by
  rw [entriesFrom, map_flatMap, nodup_flatMap]
  refine ⟨fun j _ => t.nodup j, (nodup_range' 1 Nat.one_pos).imp fun hne =>
    disjoint_left.2 fun k hk hk' => hne ?_⟩
  obtain ⟨e, he, rfl⟩ := mem_map.1 hk
  obtain ⟨e', he', heq⟩ := mem_map.1 hk'
  rw [← t.placed _ e he, ← t.placed _ e' he', heq]

theorem mem_entries [DecidableEq K] {n : ℕ} (hn : ∀ k, bucket k < n) :
    (k, v) ∈ t.entriesFrom n 0 ↔ t.get k = some v := by
  rw [mem_entriesFrom, get, lookup, find_eq_some_iff (t.nodup _)]
  simp [hn]

theorem mem_keys [DecidableEq K] {n : ℕ} (hn : ∀ k, bucket k < n) :
    k ∈ (t.entriesFrom n 0).map Prod.fst ↔ (t.get k).isSome := by
  simp only [mem_map, Prod.exists, exists_and_right, exists_eq_right, mem_entries hn,
    Option.isSome_iff_exists]

theorem length_put [DecidableEq K] {n : ℕ} (hn : ∀ k, bucket k < n) :
    ((t.put k v).entriesFrom n 0).length = (t.entriesFrom n 0).length + if (t.get k).isSome then
    0 else 1 := by
  have hk := @mem_keys _ _ _ k t _ n hn
  have hp : ((t.put k v).entriesFrom n 0).map Prod.fst ~
      if (t.get k).isSome then (t.entriesFrom n 0).map Prod.fst
      else k :: (t.entriesFrom n 0).map Prod.fst := by
    refine (perm_ext_iff_of_nodup (nodup_entriesFrom n 0) ?_).2 fun k' => ?_
    · have hnd := nodup_entriesFrom (t := t) n 0
      grind
    · have hk' := @mem_keys _ _ _ k' t _ n hn
      rw [mem_keys hn, get_put]
      grind
  have hlen := hp.length_eq
  grind

theorem length_erase [DecidableEq K] {n : ℕ} (hn : ∀ k, bucket k < n) (hk : (t.get k).isSome) :
    (t.entriesFrom n 0).length = ((t.erase k).entriesFrom n 0).length + 1 := by
  have hp : (t.entriesFrom n 0).map Prod.fst ~ k :: ((t.erase k).entriesFrom n 0).map Prod.fst := by
    refine (perm_ext_iff_of_nodup (nodup_entriesFrom n 0) ?_).2 fun k' => ?_
    · refine nodup_cons.2 ⟨?_, nodup_entriesFrom n 0⟩
      rw [mem_keys hn, get_erase, if_pos rfl]
      exact Bool.false_ne_true
    · rw [mem_keys hn, mem_cons, mem_keys hn, get_erase]
      grind
  simpa using hp.length_eq

/-! ### Walking along the chains -/

variable (t)

/-- The first chain that is not empty, of `m` chains from the `i`-th on. -/
def nextChain : ℕ → ℕ → List (K × V)
  | 0, _ => []
  | m + 1, i => if t.chain i ≠ [] then t.chain i else nextChain m (i + 1)

/-- From an entry to the next, in a table with `n` chains. An entry stands here for the rest of its
chain. -/
def next (n : ℕ) : List (K × V) → List (K × V)
  | [] => []
  | e :: c => if c ≠ [] then c else t.nextChain (n - (bucket e.1 + 1)) (bucket e.1 + 1)

/-- Visit entries until there is no next one. -/
def walk (n : ℕ) : ℕ → List (K × V) → Option (List (K × V))
  | _, [] => some []
  | 0, _ :: _ => none
  | fuel + 1, e :: c => (walk n fuel (t.next n (e :: c))).map (e :: ·)

variable {t}

theorem nextChain_spec (m i : ℕ) :
    t.nextChain m i = [] ∧ t.entriesFrom m i = [] ∨
      ∃ j < i + m, t.chain j ≠ [] ∧ t.nextChain m i = t.chain j ∧
        t.entriesFrom m i = t.chain j ++ t.entriesFrom (i + m - (j + 1)) (j + 1) := by
  induction m generalizing i with
  | zero => exact .inl ⟨rfl, rfl⟩
  | succ m ih =>
    have hcons : t.entriesFrom (m + 1) i = t.chain i ++ t.entriesFrom m (i + 1) := by
      rw [entriesFrom, range'_succ, flatMap_cons]
      rfl
    by_cases hc : t.chain i = []
    · rw [hcons, nextChain, if_neg (not_not.2 hc), hc, nil_append, show i + (m + 1) =
        i + 1 + m by omega]
      exact ih (i + 1)
    · refine .inr ⟨i, by omega, hc, if_pos hc, ?_⟩
      rw [hcons, show i + (m + 1) - (i + 1) = m by omega]

/-- From a place in a chain the walk visits the rest of the chain, and then the chains behind it. -/
theorem walk_suffix {n fuel i : ℕ} {c : List (K × V)} (hi : i < n) (hc : c <:+ t.chain i)
    (hfuel : (c ++ t.entriesFrom (n - (i + 1)) (i + 1)).length ≤ fuel) (hne : c ≠ []) :
    t.walk n fuel c = some (c ++ t.entriesFrom (n - (i + 1)) (i + 1)) := by
  induction fuel generalizing i c with
  | zero => simp [hne] at hfuel
  | succ fuel ih =>
    obtain ⟨e, c, rfl⟩ := exists_cons_of_ne_nil hne
    obtain rfl := t.placed i e (hc.subset (.head _))
    simp only [cons_append, length_cons, Nat.succ_le_succ_iff] at hfuel
    rw [walk, next]
    by_cases hlast : c = []
    · subst hlast
      rw [nil_append] at hfuel
      rw [if_neg (not_not.2 rfl), cons_append, nil_append]
      rcases nextChain_spec (t := t) (n - (bucket e.1 + 1)) (bucket e.1 + 1)
        with ⟨hnext, hnil⟩ | ⟨j, hj, hne', hnext, happ⟩
      · rw [hnext, hnil, walk]
        rfl
      · rw [happ] at hfuel ⊢
        rw [show bucket e.1 + 1 + (n - (bucket e.1 + 1)) - (j + 1) = n - (j + 1) by omega]
          at hfuel ⊢
        rw [hnext, ih (by omega) suffix_rfl hfuel hne']
        rfl
    · rw [if_pos hlast, ih hi ((suffix_cons e c).trans hc) hfuel hlast]
      rfl

/-- **A walk visits all entries, in order.** -/
theorem walk_first (n : ℕ) :
    t.walk n (t.entriesFrom n 0).length (t.nextChain n 0) = some (t.entriesFrom n 0) := by
  rcases nextChain_spec (t := t) n 0 with ⟨hnext, hnil⟩ | ⟨j, hj, hne, hnext, happ⟩
  · rw [hnext, hnil]
    rfl
  · rw [Nat.zero_add] at hj happ
    rw [hnext, happ]
    exact walk_suffix hj suffix_rfl (Nat.le_refl _) hne

end Table

end VariabilityTestbed.HashChains
