import Mathlib.Logic.Basic

/-!
# Lists of entries

A table as the list of its entries. `get` finds the first entry of a key. `put` replaces the value
of a key that is there; a new entry goes in front of the first one that `before` does not put before
it, so a table that is kept in some order stays in it.
-/

namespace VariabilityTestbed.Entries

open List Option

variable {κ ν : Type*} [DecidableEq κ]

/-- The value of a key. -/
def get (d : List (κ × ν)) (key : κ) : Option ν := (d.find? fun e => e.1 == key).map Prod.snd

/-- The key has an entry. -/
def has (d : List (κ × ν)) (key : κ) : Bool := d.any fun e => e.1 == key

/-- Change the value of a key, or give it one. -/
def put (before : κ → κ → Bool) (d : List (κ × ν)) (key : κ) (value : ν) : List (κ × ν) :=
  if has d key then d.map fun e => if e.1 == key then (e.1, value) else e
  else d.takeWhile (fun e => before e.1 key) ++ (key, value) :: d.dropWhile fun e => before e.1 key

@[simp] theorem get_nil (key : κ) : get ([] : List (κ × ν)) key = none := rfl

theorem get_cons (e : κ × ν) (d : List (κ × ν)) (key : κ) :
    get (e :: d) key = if e.1 = key then some e.2 else get d key := by
  by_cases h : e.1 = key
  · simp [get, h]
  · rw [if_neg h, get, find?_cons_of_neg (by simpa using h)]
    rfl

theorem get_append (d e : List (κ × ν)) (key : κ) :
    get (d ++ e) key = (get d key).or (get e key) := by
  rw [get, get, find?_append]
  cases d.find? fun e => e.1 == key with
  | none => rfl
  | some v => rfl

theorem get_isSome (d : List (κ × ν)) (key : κ) : (get d key).isSome = has d key := by
  rw [get, has, isSome_map, isSome_find?]

/-- Replacing the value of `key` throughout. -/
theorem get_replace (d : List (κ × ν)) (key key' : κ) (value : ν) :
    get (d.map fun e => if e.1 == key then (e.1, value) else e) key' =
      if key = key' then (get d key').map fun _ => value else get d key' := by
  induction d with
  | nil => simp
  | cons e d ih =>
    rw [map_cons, get_cons, get_cons, ih]
    by_cases hk : key = key' <;> by_cases he : e.1 = key <;> by_cases he' : e.1 = key' <;>
      simp_all

/-- Putting a new key somewhere in the middle. -/
theorem get_insert {d e : List (κ × ν)} {key : κ} (h : get (d ++ e) key = none)
    (key' : κ) (value : ν) :
    get (d ++ (key, value) :: e) key' = if key = key' then some value else get (d ++ e) key' := by
  rw [get_append, or_eq_none_iff] at h
  rw [get_append, get_append, get_cons]
  by_cases hk : key = key'
  · subst hk
    simp [h.1]
  · simp [hk]

/-- **Read after write.** -/
theorem get_put (before : κ → κ → Bool) (d : List (κ × ν)) (key key' : κ) (value : ν) :
    get (put before d key value) key' = if key = key' then some value else get d key' := by
  rw [put]
  split
  · rename_i hkey
    rw [get_replace]
    by_cases hk : key = key'
    · subst hk
      rw [← get_isSome, isSome_iff_exists] at hkey
      obtain ⟨v, hv⟩ := hkey
      simp [hv]
    · simp [hk]
  · rename_i hkey
    have hsplit :
        d.takeWhile (fun e => before e.1 key) ++ d.dropWhile (fun e => before e.1 key) = d :=
      takeWhile_append_dropWhile
    have hnone : get d key = none := by
      rw [← not_isSome_iff_eq_none, get_isSome]
      exact hkey
    rw [get_insert (by rw [hsplit]; exact hnone), hsplit]

/-! ### The first match -/

/-- Where each element that counts is found by its own, no element before it takes its place. -/
theorem find?_self_iff {α : Type*} {l : List α} {p : α → α → Bool} {w : α → Prop}
    (hnodup : l.Nodup) (hself : ∀ e ∈ l, p e e = true) :
    (∀ e ∈ l, w e → l.find? (fun x => p x e) = some e) ↔ l.Pairwise fun x e =>
    w e → p x e = false := by
  induction l with
  | nil => simp
  | cons a l ih =>
    obtain ⟨ha, hl⟩ := nodup_cons.mp hnodup
    rw [pairwise_cons, ← ih hl fun e he => hself e (mem_cons_of_mem _ he)]
    constructor
    · intro h
      have hfalse : ∀ e ∈ l, w e → p a e = false := by
        intro e he hw
        have hfind := h e (.tail _ he) hw
        cases hp : p a e with
        | false => rfl
        | true =>
          simp only [find?_cons, hp] at hfind
          exact absurd (some.inj hfind ▸ he) ha
      refine ⟨hfalse, fun e he hw => ?_⟩
      have hfind := h e (.tail _ he) hw
      simpa only [find?_cons, hfalse e he hw] using hfind
    · rintro ⟨hfalse, h⟩ e he hw
      rcases mem_cons.mp he with rfl | he
      · simp only [find?_cons, hself e mem_cons_self]
      · simpa only [find?_cons, hfalse e he hw] using h e he hw

end VariabilityTestbed.Entries
