import Mathlib.Tactic.Common

/-!
# Programs over a state

Programs that read and change a state and may not return, because they wait for ever or because an
assertion fails, and the rules to reason about them.

* `Program.bind_eq_some` takes a run of a program apart into the runs of its parts.
* `Program.Steps R m` says that a run of `m` that returns takes a state to a related one.  For a
  preorder `R` it is enough to look at the parts of a program, whatever their results are.
-/

namespace TreePass
namespace Lib

/-- A program over a state; `none` if it does not return. -/
abbrev Program (σ α : Type) := StateT σ Option α

namespace Program

variable {σ α β : Type} {R : σ → σ → Prop}

/-! ## Runs -/

theorem bind_eq_some {m : Program σ α} {f : α → Program σ β} {s : σ} {r : β × σ} :
    (m >>= f) s = some r ↔ ∃ a s₁, m s = some (a, s₁) ∧ f a s₁ = some r := by
  change (m s).bind (fun p => f p.1 p.2) = some r ↔ _
  rw [Option.bind_eq_some_iff]
  constructor
  · rintro ⟨⟨a, s₁⟩, hm, hf⟩
    exact ⟨a, s₁, hm, hf⟩
  · rintro ⟨a, s₁, hm, hf⟩
    exact ⟨(a, s₁), hm, hf⟩

theorem pure_eq_some {a b : α} {s s' : σ} :
    (pure a : Program σ α) s = some (b, s') ↔ a = b ∧ s = s' := by
  change some (a, s) = some (b, s') ↔ _
  rw [Option.some.injEq, Prod.mk.injEq]

theorem failure_eq_some {s : σ} {r : α × σ} : (failure : Program σ α) s = some r ↔ False := by
  change (none : Option (α × σ)) = some r ↔ False
  exact ⟨fun h => Option.some_ne_none r h.symm, False.elim⟩

theorem modify_eq_some {f : σ → σ} {a : PUnit} {s s' : σ} :
    (modify f : Program σ PUnit) s = some (a, s') ↔ f s = s' := by
  change some (PUnit.unit, f s) = some (a, s') ↔ _
  rw [Option.some.injEq, Prod.mk.injEq]
  exact ⟨fun h => h.2, fun h => ⟨rfl, h⟩⟩

theorem get_bind (f : σ → Program σ α) (s : σ) : ((get : Program σ σ) >>= f) s = f s s := rfl

theorem modify_bind (g : σ → σ) (f : PUnit → Program σ α) (s : σ) :
    ((modify g : Program σ PUnit) >>= f) s = f ⟨⟩ (g s) := rfl

/-! ## Steps -/

/-- Every run of the program that returns takes a state to a related one. -/
def Steps (R : σ → σ → Prop) (m : Program σ α) : Prop := ∀ s a s', m s = some (a, s') → R s s'

theorem Steps.mono {R' : σ → σ → Prop} {m : Program σ α} (hm : Steps R m) (h : ∀ s s', R s s' → R' s s') :
    Steps R' m := fun s a s' hrun => h s s' (hm s a s' hrun)

theorem Steps.pure (hrefl : ∀ s, R s s) (a : α) : Steps R (pure a : Program σ α) := by
  intro s b s' h
  obtain ⟨-, rfl⟩ := pure_eq_some.mp h
  exact hrefl s

theorem Steps.failure : Steps R (failure : Program σ α) := by
  intro s a s' h
  exact (failure_eq_some.mp h).elim

theorem Steps.bind (htrans : ∀ s s₁ s₂, R s s₁ → R s₁ s₂ → R s s₂) {m : Program σ α}
    {f : α → Program σ β} (hm : Steps R m) (hf : ∀ a, Steps R (f a)) : Steps R (m >>= f) := by
  intro s b s' h
  obtain ⟨a, s₁, hfirst, hrest⟩ := bind_eq_some.mp h
  exact htrans s s₁ s' (hm s a s₁ hfirst) (hf a s₁ b s' hrest)

theorem Steps.get_bind {f : σ → Program σ α} (hf : ∀ s a s', f s s = some (a, s') → R s s') :
    Steps R ((get : Program σ σ) >>= f) := fun s a s' h => hf s a s' h

theorem Steps.modify {f : σ → σ} (hf : ∀ s, R s (f s)) : Steps R (modify f : Program σ PUnit) := by
  intro s a s' h
  rw [← modify_eq_some.mp h]
  exact hf s

theorem Steps.ite {p : Prop} [Decidable p] {m m' : Program σ α} (hm : p → Steps R m)
    (hm' : ¬ p → Steps R m') : Steps R (if p then m else m') := by
  by_cases h : p
  · rw [if_pos h]
    exact hm h
  · rw [if_neg h]
    exact hm' h

theorem Steps.forM (hrefl : ∀ s, R s s) (htrans : ∀ s s₁ s₂, R s s₁ → R s₁ s₂ → R s s₂) {γ : Type}
    {f : γ → Program σ PUnit} {xs : List γ} (hf : ∀ x ∈ xs, Steps R (f x)) : Steps R (xs.forM f) := by
  induction xs with
  | nil => exact Steps.pure hrefl _
  | cons x xs ih =>
      have hfirst : Steps R (f x) := hf x List.mem_cons_self
      exact Steps.bind htrans hfirst fun _ => ih fun y hy => hf y (List.mem_cons_of_mem x hy)

end Program
end Lib
end TreePass
