import Mathlib.Logic.Relation

/-!
# Taking links away recursively

Each node has slots, and a slot may hold a link to another node. Links are taken away recursively: a
link of a node, then the links of the node it led to, and so on, while the graph gets smaller. The
nodes may form cycles, and a link may be gone when its turn comes.

`Cleared` is what every part of such a recursion leaves. Parts compose, and when the node that it
started from has no links left, nor has any node that could be reached from it.
-/

namespace VariabilityTestbed.Unlinking

variable {ν ι β : Type*} {dest : β → Option ν} {f g h : ν → ι → β} {t u v : ν} {n : ι}

/-- There is a way along links. -/
def Reach (dest : β → Option ν) (f : ν → ι → β) : ν → ν → Prop :=
  Relation.ReflTransGen fun u v => ∃ n, dest (f u n) = some v

/-- Links have been taken away, of nodes that could be reached from `t`; and a node that a link led
to has no links left. -/
def Cleared (dest : β → Option ν) (f g : ν → ι → β) (t : ν) : Prop :=
  ∀ u n, g u n = f u n ∨
    dest (g u n) = none ∧ ∃ v, dest (f u n) = some v ∧ Reach dest f t u ∧ ∀ m, dest (g v m) = none

theorem Reach.of_links (hlink : ∀ {u n v}, dest (g u n) = some v → dest (f u n) = some v)
    (hr : Reach dest g u v) :
    Reach dest f u v := by
  induction hr with
  | refl => exact .refl
  | tail _ hstep ih => exact ih.tail (hstep.imp fun n hn => hlink hn)

theorem Cleared.refl : Cleared dest f f t := fun _ _ => .inl rfl

/-- Where there is no link there never will be. -/
theorem Cleared.stays_none (hfg : Cleared dest f g t) (hu : dest (f u n) = none) :
    dest (g u n) = none := by
  rcases hfg u n with heq | ⟨hnone, -⟩
  · rw [heq, hu]
  · exact hnone

theorem Cleared.link (hfg : Cleared dest f g t) (hu : dest (g u n) = some v) :
    dest (f u n) = some v := by
  rcases hfg u n with heq | ⟨hnone, -⟩
  · rw [← heq, hu]
  · rw [hnone] at hu
    cases hu

theorem Cleared.reach (hfg : Cleared dest f g t) (hr : Reach dest g u v) : Reach dest f u v :=
  hr.of_links hfg.link

theorem Cleared.trans (hfg : Cleared dest f g t) (hgh : Cleared dest g h t) :
    Cleared dest f h t := by
  intro u n
  rcases hgh u n with heq | ⟨hnone, v, hv, hr, hv'⟩
  · rw [heq]
    refine (hfg u n).imp_right ?_
    rintro ⟨hnone, v, hv, hr, hv'⟩
    exact ⟨hnone, v, hv, hr, fun m => hgh.stays_none (hv' m)⟩
  · exact .inr ⟨hnone, v, hfg.link hv, hfg.reach hr, hv'⟩

/-- One link of `t` is taken away, and then those of the node that it led to. -/
theorem Cleared.of_link (hv : dest (f t n) = some v) (hn : dest (g t n) = none)
    (hg : ∀ u m, (u = t → m ≠ n) → g u m = f u m) (hgh : Cleared dest g h v)
    (hleft : ∀ m, dest (h v m) = none) :
    Cleared dest f h t := by
  have hlink : ∀ {u m w}, dest (g u m) = some w → dest (f u m) = some w := by
    intro u m w hw
    rw [← hg u m]
    · exact hw
    · rintro rfl rfl
      rw [hn] at hw
      cases hw
  have hreach : ∀ {u}, Reach dest g v u → Reach dest f t u := fun hr =>
    Relation.ReflTransGen.head ⟨n, hv⟩ (Reach.of_links hlink hr)
  intro u m
  by_cases hum : u = t → m ≠ n
  · rw [← hg u m hum]
    refine (hgh u m).imp_right ?_
    rintro ⟨hnone, w, hw, hr, hw'⟩
    exact ⟨hnone, w, hw, hreach hr, hw'⟩
  · obtain ⟨rfl, hm⟩ := Classical.not_imp.mp hum
    obtain rfl := Classical.not_not.mp hm
    exact .inr ⟨hgh.stays_none hn, v, hv, .refl, hleft⟩

/-- **Nothing that could be reached has links left.** -/
theorem Cleared.none_of_reach (hfg : Cleared dest f g t) (ht : ∀ n, dest (g t n) = none)
    (hr : Reach dest f t u) (n : ι) : dest (g u n) = none := by
  induction hr generalizing n with
  | refl => exact ht n
  | tail _ hstep ih =>
    obtain ⟨m, hm⟩ := hstep
    -- the link on the way is gone, so the node behind it is empty
    rcases hfg _ m with heq | ⟨-, v, hv, -, hempty⟩
    · have hnone := ih m
      rw [heq, hm] at hnone
      cases hnone
    · obtain rfl := Option.some.inj (hm.symm.trans hv)
      exact hempty n

/-- And nothing else has changed. -/
theorem Cleared.eq_of_not_reach (hfg : Cleared dest f g t) (hr : ¬Reach dest f t u) (n : ι) :
    g u n = f u n :=
  (hfg u n).resolve_right fun h => hr h.2.choose_spec.2.1

end VariabilityTestbed.Unlinking
