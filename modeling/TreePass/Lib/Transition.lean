import Mathlib.Data.List.Basic
import Mathlib.Data.List.Induction

/-!
# Labelled transition systems and guarded runs

A small library of state machines.  A `System` has initial states and labelled steps; a
`Run` records, step by step, the state each label was taken from, so that a condition on the
steps of a run and a property of the states it visits can both be read off the same trace.
-/

namespace TreePass
namespace Lib

/-- A labelled transition system over states `σ` and labels `α`. -/
structure System (σ : Type*) (α : Type*) where
  /-- The states a run may start in. -/
  init : σ → Prop
  /-- `step s a s'`: label `a` may lead from `s` to `s'`. -/
  step : σ → α → σ → Prop

namespace System

variable {σ α : Type*} (S : System σ α)

/-- `S.Run s tr s'`: from `s` the steps of `tr` lead to `s'`.  Each element of `tr` is the state
before the step together with the label taken there. -/
inductive Run (s : σ) : List (σ × α) → σ → Prop
  | nil : Run s [] s
  | snoc {s' s'' : σ} {tr : List (σ × α)} {a : α} :
      Run s tr s' → S.step s' a s'' → Run s (tr ++ [(s', a)]) s''

def Reachable (s' : σ) : Prop := ∃ s tr, S.init s ∧ S.Run s tr s'

/-- Every step of the trace is taken where the guard allows it. -/
def Guarded (guard : σ → α → Prop) (tr : List (σ × α)) : Prop := ∀ p ∈ tr, guard p.1 p.2

/-- Every state the trace visits, the last one included, satisfies `P`. -/
def Visits (P : σ → Prop) (tr : List (σ × α)) (last : σ) : Prop := (∀ p ∈ tr, P p.1) ∧ P last

variable {S}

@[simp] theorem guarded_nil (guard : σ → α → Prop) : Guarded guard [] := by
  intro p hp
  cases hp

@[simp] theorem guarded_snoc {guard : σ → α → Prop} {tr : List (σ × α)} {s : σ} {a : α} :
    Guarded guard (tr ++ [(s, a)]) ↔ Guarded guard tr ∧ guard s a := by
  simp [Guarded, or_imp, forall_and]

@[simp] theorem visits_nil {P : σ → Prop} {s : σ} : Visits P ([] : List (σ × α)) s ↔ P s := by
  simp [Visits]

@[simp] theorem visits_snoc {P : σ → Prop} {tr : List (σ × α)} {s s' : σ} {a : α} :
    Visits P (tr ++ [(s, a)]) s' ↔ Visits P tr s ∧ P s' := by
  simp [Visits, or_imp, forall_and]

theorem Visits.last {P : σ → Prop} {tr : List (σ × α)} {s : σ} (h : Visits P tr s) : P s := h.2

theorem Visits.mono {P Q : σ → Prop} {tr : List (σ × α)} {s : σ} (h : Visits P tr s)
    (hPQ : ∀ s, P s → Q s) : Visits Q tr s :=
  ⟨fun p hp => hPQ _ (h.1 p hp), hPQ _ h.2⟩

/-- **Invariant rule for guarded runs.**  A property of the first state that every guarded step
preserves holds in every state a guarded run visits. -/
theorem Run.invariant {guard : σ → α → Prop} {P : σ → Prop} {s s' : σ} {tr : List (σ × α)}
    (hrun : S.Run s tr s') (hstart : P s)
    (hstep : ∀ s a s', P s → guard s a → S.step s a s' → P s')
    (hguard : Guarded guard tr) : Visits P tr s' := by
  induction hrun with
  | nil => exact visits_nil.mpr hstart
  | snoc hprev hlast ih =>
      obtain ⟨hbefore, hnow⟩ := guarded_snoc.mp hguard
      have hvisited := ih hbefore
      exact visits_snoc.mpr ⟨hvisited, hstep _ _ _ hvisited.last hnow hlast⟩

/-- **Invariant rule with history.**  What relates the trace so far to the state reached. -/
theorem Run.trace_invariant {P : List (σ × α) → σ → Prop} {s s' : σ} {tr : List (σ × α)}
    (hrun : S.Run s tr s') (hstart : P [] s)
    (hstep : ∀ tr s a s', P tr s → S.step s a s' → P (tr ++ [(s, a)]) s') : P tr s' := by
  induction hrun with
  | nil => exact hstart
  | snoc hprev hlast ih => exact hstep _ _ _ _ ih hlast

/-! ## Parts of a run -/

theorem guarded_append {guard : σ → α → Prop} {tr tr' : List (σ × α)} :
    Guarded guard (tr ++ tr') ↔ Guarded guard tr ∧ Guarded guard tr' := by
  simp [Guarded, or_imp, forall_and]

theorem guarded_cons {guard : σ → α → Prop} {p : σ × α} {tr : List (σ × α)} :
    Guarded guard (p :: tr) ↔ guard p.1 p.2 ∧ Guarded guard tr := by
  simp [Guarded]

theorem run_nil_iff {s s' : σ} : S.Run s [] s' ↔ s = s' := by
  constructor
  · intro h
    generalize hempty : ([] : List (σ × α)) = tr at h
    cases h with
    | nil => rfl
    | snoc hprev hlast => simp at hempty
  · rintro rfl
    exact Run.nil

theorem run_snoc_iff {s s' : σ} {tr : List (σ × α)} {p : σ × α} :
    S.Run s (tr ++ [p]) s' ↔ S.Run s tr p.1 ∧ S.step p.1 p.2 s' := by
  constructor
  · intro h
    generalize hall : tr ++ [p] = all at h
    cases h with
    | nil => simp at hall
    | snoc hprev hlast =>
        obtain ⟨rfl, hp⟩ := List.append_inj' hall rfl
        obtain rfl := List.singleton_inj.mp hp
        exact ⟨hprev, hlast⟩
  · rintro ⟨hprev, hlast⟩
    exact Run.snoc hprev hlast

theorem run_append {s s' : σ} {tr tr' : List (σ × α)} :
    S.Run s (tr ++ tr') s' ↔ ∃ m, S.Run s tr m ∧ S.Run m tr' s' := by
  induction tr' using List.reverseRecOn generalizing s' with
  | nil =>
      simp only [List.append_nil, run_nil_iff]
      exact ⟨fun h => ⟨s', h, rfl⟩, fun ⟨m, h, heq⟩ => heq ▸ h⟩
  | append_singleton rest p ih =>
      rw [← List.append_assoc, run_snoc_iff, ih]
      constructor
      · rintro ⟨⟨m, hfirst, hrest⟩, hlast⟩
        exact ⟨m, hfirst, run_snoc_iff.mpr ⟨hrest, hlast⟩⟩
      · rintro ⟨m, hfirst, hall⟩
        obtain ⟨hrest, hlast⟩ := run_snoc_iff.mp hall
        exact ⟨⟨m, hfirst, hrest⟩, hlast⟩

theorem run_singleton_iff {s s' : σ} {p : σ × α} : S.Run s [p] s' ↔ p.1 = s ∧ S.step s p.2 s' := by
  rw [← List.nil_append [p], run_snoc_iff, run_nil_iff]
  constructor
  · rintro ⟨rfl, hstep⟩
    exact ⟨rfl, hstep⟩
  · rintro ⟨rfl, hstep⟩
    exact ⟨rfl, hstep⟩

theorem run_cons_iff {s s' : σ} {tr : List (σ × α)} {p : σ × α} :
    S.Run s (p :: tr) s' ↔ p.1 = s ∧ ∃ m, S.step s p.2 m ∧ S.Run m tr s' := by
  rw [← List.singleton_append, run_append]
  simp only [run_singleton_iff, and_assoc, exists_and_left]

/-- **Exactness rule.**  If, besides, an unguarded step always leaves the property, a run keeps
the property throughout exactly when each of its steps is guarded. -/
theorem Run.visits_iff_guarded {guard : σ → α → Prop} {P : σ → Prop} {s s' : σ}
    {tr : List (σ × α)} (hrun : S.Run s tr s') (hstart : P s)
    (hstep : ∀ s a s', P s → S.step s a s' → (P s' ↔ guard s a)) :
    Visits P tr s' ↔ Guarded guard tr := by
  induction hrun with
  | nil => simp [hstart]
  | snoc hprev hlast ih =>
      rw [visits_snoc, guarded_snoc, ih]
      constructor
      · rintro ⟨hbefore, hnow⟩
        have hvisited := ih.mpr hbefore
        exact ⟨hbefore, (hstep _ _ _ hvisited.last hlast).mp hnow⟩
      · rintro ⟨hbefore, hnow⟩
        have hvisited := ih.mpr hbefore
        exact ⟨hbefore, (hstep _ _ _ hvisited.last hlast).mpr hnow⟩

/-- **Exactness rule with an invariant.**  When the invariant gives the property, guarded steps keep
the invariant and an unguarded one loses the property, a run has the property throughout exactly
when each of its steps is guarded. -/
theorem Run.visits_iff_guarded_of_invariant {guard : σ → α → Prop} {I P : σ → Prop} {s s' : σ}
    {tr : List (σ × α)} (hrun : S.Run s tr s') (hstart : I s) (hgood : ∀ s, I s → P s)
    (hkeep : ∀ s a s', I s → guard s a → S.step s a s' → I s')
    (hlose : ∀ s a s', I s → ¬ guard s a → S.step s a s' → ¬ P s') :
    Visits P tr s' ↔ Guarded guard tr := by
  constructor
  · intro hvisits
    induction hrun with
    | nil => exact guarded_nil guard
    | snoc hprev hlast ih =>
        obtain ⟨hbefore, hnow⟩ := visits_snoc.mp hvisits
        have hguarded := ih hbefore
        have hinv : I _ := (hprev.invariant hstart hkeep hguarded).last
        refine guarded_snoc.mpr ⟨hguarded, ?_⟩
        by_contra hnot
        exact hlose _ _ _ hinv hnot hlast hnow
  · intro hguarded
    exact (hrun.invariant hstart hkeep hguarded).mono hgood

theorem Reachable.invariant {P : σ → Prop} {s : σ} (hreach : S.Reachable s)
    (hinit : ∀ s, S.init s → P s) (hstep : ∀ s a s', P s → S.step s a s' → P s') : P s := by
  obtain ⟨s₀, tr, hs₀, hrun⟩ := hreach
  have hguard : Guarded (fun _ _ => True) tr := fun _ _ => trivial
  have hvisits : Visits P tr s :=
    hrun.invariant (hinit s₀ hs₀) (fun s a s' hP _ h => hstep s a s' hP h) hguard
  exact hvisits.last

/-! ## Systems given by a partial step function -/

/-- The system whose steps are the results of a partial function. -/
def ofFun (init : σ → Prop) (next : σ → α → Option σ) : System σ α where
  init := init
  step s a s' := next s a = some s'

/-- Take the labels one after another, recording the state before each. -/
def exec (next : σ → α → Option σ) : σ → List α → Option (List (σ × α) × σ)
  | s, [] => some ([], s)
  | s, a :: as => (next s a).bind fun s' =>
      (exec next s' as).map fun run => ((s, a) :: run.1, run.2)

theorem Run.cons {s s' s'' : σ} {a : α} {tr : List (σ × α)} (hfirst : S.step s a s')
    (hrest : S.Run s' tr s'') : S.Run s ((s, a) :: tr) s'' := by
  induction hrest with
  | nil =>
      have hone : S.Run s ([] ++ [(s, a)]) s' := Run.snoc Run.nil hfirst
      exact hone
  | snoc hprev hlast ih => exact Run.snoc ih hlast

theorem run_of_exec {init : σ → Prop} {next : σ → α → Option σ} {as : List α} :
    ∀ {s last : σ} {tr : List (σ × α)}, exec next s as = some (tr, last) →
      (ofFun init next).Run s tr last := by
  induction as with
  | nil =>
      intro s last tr h
      obtain ⟨rfl, rfl⟩ : [] = tr ∧ s = last := by simpa [exec] using h
      exact Run.nil
  | cons a as ih =>
      intro s last tr h
      simp only [exec, Option.bind_eq_some_iff, Option.map_eq_some_iff, Prod.mk.injEq] at h
      obtain ⟨s', hnext, ⟨tr', last'⟩, hrest, rfl, rfl⟩ := h
      exact Run.cons hnext (ih hrest)

theorem exists_run (init : σ → Prop) (next : σ → α → Option σ) (s : σ) (as : List α)
    {P : List (σ × α) → σ → Bool}
    (h : (exec next s as).map (fun r => P r.1 r.2) = some true) :
    ∃ tr s', (ofFun init next).Run s tr s' ∧ P tr s' = true := by
  obtain ⟨r, hexec, hP⟩ := Option.map_eq_some_iff.mp h
  exact ⟨r.1, r.2, run_of_exec hexec, hP⟩

end System
end Lib
end TreePass
