import Mathlib.Logic.Function.Basic
import Mathlib.Tactic.Common

/-!
# Flags and their owners

Threads share flags, one for each of a family of things, and a thread that has set a flag has the
thing to itself until it clears the flag again.  `Owned busy holds` says that the flags tell the
truth: a flag is set exactly while some thread has the thing, and no two threads have it.

The rules follow a thread through its program: `Owned.keep` for a step after which it has what it
had, `Owned.take` for a flag it finds clear and sets, `Owned.drop` for a flag it clears.
-/

namespace TreePass
namespace Lib

variable {τ β : Type*}

/-- The flags `busy` say which things the threads have: `holds t b` means that `t` has `b`. -/
structure Owned (busy : β → Bool) (holds : τ → β → Prop) : Prop where
  /-- No two threads have the same thing. -/
  exclusive : ∀ {t u : τ} {b : β}, holds t b → holds u b → t = u
  /-- A flag is set exactly while a thread has the thing. -/
  busy_iff : ∀ b, busy b = true ↔ ∃ t, holds t b

namespace Owned

variable {busy : β → Bool} {holds : τ → β → Prop} {t : τ} {b : β}

theorem busy_of_holds (h : Owned busy holds) (hb : holds t b) : busy b = true :=
  (h.busy_iff b).mpr ⟨t, hb⟩

theorem not_holds (h : Owned busy holds) (hfree : busy b = false) : ¬ holds t b := by
  intro hb
  rw [h.busy_of_holds hb] at hfree
  cases hfree

theorem of_free (hfree : ∀ b, busy b = false) (hnone : ∀ t b, ¬ holds t b) : Owned busy holds where
  exclusive := fun h _ => absurd h (hnone _ _)
  busy_iff := by
    intro b
    rw [hfree b]
    simp [hnone]

variable [DecidableEq τ] {P : β → Prop}

theorem update_self_iff (c : β) : Function.update holds t P t c ↔ P c := by
  rw [Function.update_self]

theorem update_other_iff {u : τ} (hne : u ≠ t) (c : β) :
    Function.update holds t P u c ↔ holds u c := by
  rw [Function.update_of_ne hne]

theorem exists_update_iff (c : β) :
    (∃ u, Function.update holds t P u c) ↔ P c ∨ ∃ u, u ≠ t ∧ holds u c := by
  constructor
  · rintro ⟨u, hu⟩
    by_cases heq : u = t
    · subst heq
      exact Or.inl ((update_self_iff c).mp hu)
    · exact Or.inr ⟨u, heq, (update_other_iff heq c).mp hu⟩
  · rintro (hc | ⟨u, hne, hu⟩)
    · exact ⟨t, (update_self_iff c).mpr hc⟩
    · exact ⟨u, (update_other_iff hne c).mpr hu⟩

theorem exists_iff (c : β) : (∃ u, holds u c) ↔ holds t c ∨ ∃ u, u ≠ t ∧ holds u c := by
  constructor
  · rintro ⟨u, hu⟩
    by_cases heq : u = t
    · exact Or.inl (heq ▸ hu)
    · exact Or.inr ⟨u, heq, hu⟩
  · rintro (hc | ⟨u, -, hu⟩)
    · exact ⟨t, hc⟩
    · exact ⟨u, hu⟩

theorem exclusive_update (h : Owned busy holds) (hP : ∀ c u, P c → u ≠ t → ¬ holds u c)
    {u v : τ} {c : β} (hu : Function.update holds t P u c) (hv : Function.update holds t P v c) :
    u = v := by
  by_cases hut : u = t
  · subst hut
    by_cases hvt : v = u
    · exact hvt.symm
    · exact absurd ((update_other_iff hvt c).mp hv) (hP c v ((update_self_iff c).mp hu) hvt)
  · by_cases hvt : v = t
    · subst hvt
      exact absurd ((update_other_iff hut c).mp hu) (hP c u ((update_self_iff c).mp hv) hut)
    · exact h.exclusive ((update_other_iff hut c).mp hu) ((update_other_iff hvt c).mp hv)

theorem keep (h : Owned busy holds) (hsame : ∀ c, P c ↔ holds t c) :
    Owned busy (Function.update holds t P) where
  exclusive := h.exclusive_update fun c u hc hne hu => hne (h.exclusive hu ((hsame c).mp hc))
  busy_iff := by
    intro c
    rw [h.busy_iff c, exists_update_iff, exists_iff (t := t), hsame c]

variable [DecidableEq β]

theorem take (h : Owned busy holds) (hfree : busy b = false) (hP : ∀ c, P c ↔ holds t c ∨ c = b) :
    Owned (Function.update busy b true) (Function.update holds t P) where
  exclusive := by
    refine h.exclusive_update fun c u hc hne hu => ?_
    rcases (hP c).mp hc with hc | rfl
    · exact hne (h.exclusive hu hc)
    · exact h.not_holds hfree hu
  busy_iff := by
    intro c
    rw [exists_update_iff, hP c]
    by_cases hc : c = b
    · subst hc
      simp
    · rw [Function.update_of_ne hc, h.busy_iff c, exists_iff (t := t)]
      simp [hc]

theorem drop (h : Owned busy holds) (hheld : holds t b) (hP : ∀ c, P c ↔ holds t c ∧ c ≠ b) :
    Owned (Function.update busy b false) (Function.update holds t P) where
  exclusive := h.exclusive_update fun c u hc hne hu => hne (h.exclusive hu ((hP c).mp hc).1)
  busy_iff := by
    intro c
    rw [exists_update_iff, hP c]
    by_cases hc : c = b
    · subst hc
      have hnone : ¬ ∃ u, u ≠ t ∧ holds u c := fun ⟨u, hne, hu⟩ => hne (h.exclusive hu hheld)
      simp [hnone]
    · rw [Function.update_of_ne hc, h.busy_iff c, exists_iff (t := t)]
      simp [hc]

end Owned

/-! ## One flag of many -/

/-- What a step of a thread does to the flags and to its having `b`: nothing, or it takes `b` or
drops it. -/
inductive FlagMove [DecidableEq β] (busy : β → Bool) (b : β) (had : Prop) : (β → Bool) → Prop → Prop
  | keep {has : Prop} (hsame : has ↔ had) : FlagMove busy b had busy has
  | take {has : Prop} (hfree : busy b = false) (hhas : has) :
      FlagMove busy b had (Function.update busy b true) has
  | drop {has : Prop} (hhad : had) (hnot : ¬ has) :
      FlagMove busy b had (Function.update busy b false) has

theorem Owned.move [DecidableEq τ] [DecidableEq β] {busy busy' : β → Bool} {holds : τ → β → Prop}
    {t : τ} {b : β} {has : Prop} (h : Owned busy holds)
    (hmove : FlagMove busy b (holds t b) busy' has) :
    Owned busy' (Function.update holds t (Function.update (holds t) b has)) := by
  cases hmove with
  | keep hsame =>
      refine h.keep fun c => ?_
      by_cases hc : c = b
      · subst hc
        rw [Function.update_self]
        exact hsame
      · rw [Function.update_of_ne hc]
  | take hfree hhas =>
      refine h.take hfree fun c => ?_
      by_cases hc : c = b
      · subst hc
        rw [Function.update_self]
        exact ⟨fun _ => Or.inr rfl, fun _ => hhas⟩
      · rw [Function.update_of_ne hc]
        exact ⟨Or.inl, fun hor => hor.resolve_right hc⟩
  | drop hhad hnot =>
      refine h.drop hhad fun c => ?_
      by_cases hc : c = b
      · subst hc
        rw [Function.update_self]
        exact ⟨fun hhas => absurd hhas hnot, fun hand => absurd rfl hand.2⟩
      · rw [Function.update_of_ne hc]
        exact ⟨fun hh => ⟨hh, hc⟩, fun hand => hand.1⟩

end Lib
end TreePass
