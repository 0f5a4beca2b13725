import Mathlib.Tactic.Common

/-!
# Hoare triples for programs that may stop

Programs that read and change a state, return a value or stop without one: because they wait for
ever (this includes a loop that does not end), because an assertion fails, or because they break a
rule that is checked on the way.

* `Triple P m Q` says that a run of `m` from a state with `P` never breaks a rule and, if it
  returns, that it ends with `Q`.
* The rules take a program apart at its first step; `Triple.step` also adapts what is known before
  that step to what the step asks for.
* `Agrees R S m m'` compares two programs: from states related by `R` they stop for the same reason
  or return results related by `S`, and the states they leave are related again.
-/

namespace TreePass
namespace Lib

/-- Why a program stops before it returns. -/
inductive Stop where
  | waits
  | asserts
  | misuse
  deriving DecidableEq, Repr

/-- A program over a state that returns or stops; the state it leaves is kept in both cases. -/
abbrev Action (σ α : Type) := ExceptT Stop (StateM σ) α

namespace Action

variable {σ α β : Type}

def runFrom (m : Action σ α) (s : σ) : Except Stop α × σ := m s

@[simp] theorem runFrom_pure (a : α) (s : σ) : (pure a : Action σ α).runFrom s = (.ok a, s) := rfl

@[simp] theorem runFrom_throw (e : Stop) (s : σ) :
    (throw e : Action σ α).runFrom s = (.error e, s) := rfl

@[simp] theorem runFrom_get (s : σ) : (get : Action σ σ).runFrom s = (.ok s, s) := rfl

@[simp] theorem runFrom_modify (f : σ → σ) (s : σ) :
    (modify f : Action σ PUnit).runFrom s = (.ok ⟨⟩, f s) := rfl

theorem runFrom_bind (m : Action σ α) (f : α → Action σ β) (s : σ) :
    (m >>= f).runFrom s =
      match m.runFrom s with
      | (.ok a, s') => (f a).runFrom s'
      | (.error e, s') => (.error e, s') := by
  change (ExceptT.bindCont (m := StateM σ) f (m s).1 (m s).2) = _
  unfold runFrom
  rcases m s with ⟨_ | _, _⟩ <;> rfl

/-! ## Triples -/

/-- How a run may end: with `Q` if it returns, and otherwise not by breaking a rule. -/
def Ends (Q : α → σ → Prop) : Except Stop α × σ → Prop
  | (.ok a, s) => Q a s
  | (.error e, _) => e ≠ .misuse

/-- **Hoare triples.**  From a state with `P` the program breaks no rule and returns with `Q`. -/
def Triple (P : σ → Prop) (m : Action σ α) (Q : α → σ → Prop) : Prop :=
  ∀ s, P s → Ends Q (m.runFrom s)

variable {P P' : σ → Prop} {Q Q' : α → σ → Prop} {R : β → σ → Prop}

theorem Ends.mono (h : ∀ a s, Q a s → Q' a s) {r : Except Stop α × σ} (hr : Ends Q r) :
    Ends Q' r := by
  rcases r with ⟨e | a, s⟩
  · exact hr
  · exact h a s hr

theorem Triple.weaken (h : Triple P m Q) (hpre : ∀ s, P' s → P s)
    (hpost : ∀ a s, Q a s → Q' a s) : Triple P' m Q' := fun s hs =>
  (h s (hpre s hs)).mono hpost

theorem Triple.pure {a : α} (h : ∀ s, P s → Q a s) : Triple P (pure a) Q := fun s hs => h s hs

theorem Triple.throw {e : Stop} (h : e ≠ .misuse) : Triple P (throw e) Q := fun _ _ => h

theorem Triple.bind {m : Action σ α} {f : α → Action σ β} (hm : Triple P m Q)
    (hf : ∀ a, Triple (Q a) (f a) R) : Triple P (m >>= f) R := by
  intro s hs
  have hfirst := hm s hs
  rw [runFrom_bind]
  rcases hrun : m.runFrom s with ⟨e | a, s'⟩
  · rw [hrun] at hfirst
    exact hfirst
  · rw [hrun] at hfirst
    exact hf a s' hfirst

theorem Triple.step {m : Action σ α} {f : α → Action σ β} (hm : Triple P' m Q)
    (hpre : ∀ s, P s → P' s) (hf : ∀ a, Triple (Q a) (f a) R) : Triple P (m >>= f) R :=
  (hm.weaken hpre fun _ _ h => h).bind hf

theorem Triple.ite {p : Prop} [Decidable p] {m m' : Action σ α} (hm : p → Triple P m Q)
    (hm' : ¬ p → Triple P m' Q) : Triple P (if p then m else m') Q := by
  by_cases h : p
  · rw [if_pos h]
    exact hm h
  · rw [if_neg h]
    exact hm' h

/-! ## Two runs -/

/-- Two runs end alike: both return, or both stop for the same reason. -/
def Alike (R : σ → σ → Prop) (S : α → α → Prop) :
    Except Stop α × σ → Except Stop α × σ → Prop
  | (.ok a, s), (.ok a', s') => S a a' ∧ R s s'
  | (.error e, s), (.error e', s') => e = e' ∧ R s s'
  | _, _ => False

theorem Alike.eq_results {R : σ → σ → Prop} {r r' : Except Stop α × σ} (h : Alike R Eq r r') :
    r.1 = r'.1 ∧ R r.2 r'.2 := by
  rcases r with ⟨e | a, s⟩ <;> rcases r' with ⟨e' | a', s'⟩
  · exact ⟨congrArg Except.error h.1, h.2⟩
  · exact h.elim
  · exact h.elim
  · exact ⟨congrArg Except.ok h.1, h.2⟩

/-- **Agreement.**  From related states two programs end alike. -/
def Agrees (R : σ → σ → Prop) (S : α → α → Prop) (m m' : Action σ α) : Prop :=
  ∀ s s', R s s' → Alike R S (m.runFrom s) (m'.runFrom s')

section Agreement

variable {r : σ → σ → Prop} {S : α → α → Prop} {T : β → β → Prop}

theorem Agrees.pure {a a' : α} (h : S a a') : Agrees r S (pure a) (pure a') :=
  fun _ _ hs => ⟨h, hs⟩

theorem Agrees.throw (e : Stop) : Agrees r S (throw e) (throw e) := fun _ _ hs => ⟨rfl, hs⟩

theorem Agrees.bind {m m' : Action σ α} {f f' : α → Action σ β} (hm : Agrees r S m m')
    (hf : ∀ a a', S a a' → Agrees r T (f a) (f' a')) : Agrees r T (m >>= f) (m' >>= f') := by
  intro s s' hs
  have hfirst := hm s s' hs
  rw [runFrom_bind, runFrom_bind]
  rcases hrun : m.runFrom s with ⟨e | a, s₁⟩ <;> rcases hrun' : m'.runFrom s' with ⟨e' | a', s₁'⟩ <;>
    rw [hrun, hrun'] at hfirst
  · exact hfirst
  · exact hfirst.elim
  · exact hfirst.elim
  · exact hf a a' hfirst.1 s₁ s₁' hfirst.2

theorem Agrees.bind_eq {m m' : Action σ α} {f f' : α → Action σ β}
    (hm : Agrees r Eq m m') (hf : ∀ a, Agrees r T (f a) (f' a)) :
    Agrees r T (m >>= f) (m' >>= f') := by
  refine hm.bind fun a a' ha => ?_
  rw [ha]
  exact hf a'

theorem Agrees.bind_pure {m m' : Action σ α} (hm : Agrees r Eq m m') (f : α → β) :
    Agrees r Eq (m >>= fun a => Pure.pure (f a)) (m' >>= fun a => Pure.pure (f a)) :=
  hm.bind_eq fun _ => Agrees.pure rfl

theorem Agrees.ite {p p' : Prop} [Decidable p] [Decidable p'] {m₁ m₁' m₂ m₂' : Action σ α}
    (hp : p ↔ p') (h₁ : Agrees r S m₁ m₁') (h₂ : Agrees r S m₂ m₂') :
    Agrees r S (if p then m₁ else m₂) (if p' then m₁' else m₂') := by
  by_cases h : p
  · rw [if_pos h, if_pos (hp.mp h)]
    exact h₁
  · rw [if_neg h, if_neg (mt hp.mpr h)]
    exact h₂

end Agreement

end Action
end Lib
end TreePass
