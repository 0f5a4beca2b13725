import TreePass.Trunk.PivotState
import Mathlib.Data.List.Flatten
import Mathlib.Data.List.Infix
import Mathlib.Data.Multiset.ZeroCons

/-!
# What states claim of a pivot

Several pivot states may be about one pivot at a time: the one in the table and abandoned ones
that tasks still hold.  Seen from the pivot, each lays a *claim* to it: the inputs of the
compactions that are still to be applied, their outputs, and the maplet it was built on.

* `Ledger` says how claims stand to the pivot.  A claim that is still to be applied fits the front
  of the in-flight bundles, or its first branch is gone for good, or it was built on a maplet the
  pivot no longer has.
* `Ledger.fits_of_match`: what the test before an application lets through fits.
* The other lemmas are the changes that happen to a pivot and its claims.
-/

namespace TreePass
namespace Trunk

variable {K : Type}

theorem update_eq_some {α β : Type} [DecidableEq α] {table : α → Option β} {a x : α} {b y : β}
    (h : Function.update table a (some b) x = some y) :
    (x = a ∧ y = b) ∨ (x ≠ a ∧ table x = some y) := by
  by_cases hx : x = a
  · rw [hx, Function.update_self] at h
    exact Or.inl ⟨hx, (Option.some.inj h).symm⟩
  · rw [Function.update_of_ne hx] at h
    exact Or.inr ⟨hx, h⟩

/-! ## Claims -/

/-- What a state claims of its pivot. -/
structure Claim where
  maplet : Nat
  /-- The inputs of the compactions still to be applied. -/
  inputs : List Bundle
  /-- Their output branches, as far as there are any. -/
  outputs : List Nat
  /-- The maplets that are being built. -/
  building : Multiset Nat

def Pivot.held (pvt : Pivot K) : List Nat :=
  pvt.pivotBundle.branches ++ pvt.inflight.flatMap (·.branches)

def firstBranch (bundles : List Bundle) : Option Nat := bundles.head?.bind (·.branches.head?)

/-- The branch is at the pivot or may come there as the output of a compaction. -/
def InUse (pvt : Pivot K) (claims : Nat → Option Claim) (a : Nat) : Prop :=
  a ∈ pvt.held ∨ ∃ σ c, claims σ = some c ∧ a ∈ c.outputs

/-- The maplet is not that of the pivot or of a state, and `σ` alone is building it. -/
structure Unused (pvt : Pivot K) (claims : Nat → Option Claim) (σ m : Nat) : Prop where
  ne_zero : m ≠ 0
  pivot : m ≠ pvt.pivotBundle.maplet
  maplet : ∀ τ c, claims τ = some c → c.maplet ≠ m
  building : ∀ τ c, claims τ = some c → τ ≠ σ → m ∉ c.building

def Fits (pvt : Pivot K) (c : Claim) : Prop :=
  c.inputs <+: pvt.inflight ∧ c.maplet = pvt.pivotBundle.maplet

def Lost (pvt : Pivot K) (claims : Nat → Option Claim) (c : Claim) : Prop :=
  ∀ a, firstBranch c.inputs = some a → ¬ InUse pvt claims a

def Stale (pvt : Pivot K) (c : Claim) : Prop := c.maplet ≠ 0 ∧ c.maplet ≠ pvt.pivotBundle.maplet

/-- **How claims stand to a pivot.** -/
structure Ledger (pvt : Pivot K) (claims : Nat → Option Claim) : Prop where
  nonempty : ∀ b ∈ pvt.inflight, b.branches ≠ []
  maplet : pvt.pivotBundle.maplet = 0 ↔ pvt.pivotBundle.branches = []
  nodup : pvt.held.Nodup
  outputs : ∀ σ c, claims σ = some c → c.outputs.Nodup ∧ ∀ a ∈ c.outputs, a ∉ pvt.held
  apart : ∀ σ τ c c', claims σ = some c → claims τ = some c' → σ ≠ τ → ∀ a ∈ c.outputs,
    a ∉ c'.outputs
  building : ∀ σ c, claims σ = some c → ∀ m ∈ c.building, m = c.maplet ∨ Unused pvt claims σ m
  standing : ∀ σ c, claims σ = some c → c.inputs ≠ [] →
    Fits pvt c ∨ Lost pvt claims c ∨ Stale pvt c

/-! ## Matches -/

theorem mem_held_of_firstBranch {pvt : Pivot K} {a : Nat} (h : firstBranch pvt.inflight = some a) :
    a ∈ pvt.held := by
  obtain ⟨b, hb, ha⟩ := Option.bind_eq_some_iff.mp h
  have hmem : b ∈ pvt.inflight := List.mem_of_head? hb
  have hbranch : a ∈ b.branches := List.mem_of_head? ha
  exact List.mem_append_right _ (List.mem_flatMap.mpr ⟨b, hmem, hbranch⟩)

theorem firstBranch_isSome {bundles : List Bundle} (hne : bundles ≠ [])
    (h : ∀ b ∈ bundles, b.branches ≠ []) : ∃ a, firstBranch bundles = some a := by
  obtain ⟨b, rest, rfl⟩ := List.exists_cons_of_ne_nil hne
  obtain ⟨a, as, hb⟩ := List.exists_cons_of_ne_nil (h b List.mem_cons_self)
  exact ⟨a, by simp [firstBranch, hb]⟩

theorem firstBranch_of_front {bs cs : List Bundle} (h : bs <+: cs) (hne : bs ≠ []) :
    firstBranch bs = firstBranch cs := by
  obtain ⟨b, rest, rfl⟩ := List.exists_cons_of_ne_nil hne
  obtain ⟨tail, rfl⟩ := h
  rfl

theorem Lost.mono {pvt pvt' : Pivot K} {claims claims' : Nat → Option Claim} {c : Claim}
    (h : Lost pvt claims c)
    (huse : ∀ a, firstBranch c.inputs = some a → InUse pvt' claims' a → InUse pvt claims a) :
    Lost pvt' claims' c := fun a ha hin => h a ha (huse a ha hin)

namespace Ledger

variable {pvt : Pivot K} {claims : Nat → Option Claim}

theorem fits_of_match (h : Ledger pvt claims) {σ : Nat} {c : Claim} (hc : claims σ = some c)
    (hne : c.inputs ≠ []) (hinflight : pvt.inflight ≠ [])
    (hmaplet : pvt.pivotBundle.maplet = c.maplet)
    (hfirst : firstBranch pvt.inflight = firstBranch c.inputs) : Fits pvt c := by
  rcases h.standing σ c hc hne with hfits | hlost | hstale
  · exact hfits
  · obtain ⟨a, ha⟩ := firstBranch_isSome hinflight h.nonempty
    exact absurd (Or.inl (mem_held_of_firstBranch ha)) (hlost a (hfirst ▸ ha))
  · exact absurd hmaplet.symm hstale.2

/-! ## Changes of the claims -/

theorem empty (ubkey : K) (hclaims : ∀ σ, claims σ = none) : Ledger (emptyPivot ubkey) claims where
  nonempty := by simp [emptyPivot]
  maplet := by simp [emptyPivot, emptyBundle]
  nodup := by simp [Pivot.held, emptyPivot, emptyBundle]
  outputs σ c hc := by simp [hclaims] at hc
  apart σ τ c c' hc := by simp [hclaims] at hc
  building σ c hc := by simp [hclaims] at hc
  standing σ c hc := by simp [hclaims] at hc

/-- Nobody has the maplet, and nobody is building it. -/
structure FreshMaplet (pvt : Pivot K) (claims : Nat → Option Claim) (m : Nat) : Prop where
  ne_zero : m ≠ 0
  pivot : m ≠ pvt.pivotBundle.maplet
  maplet : ∀ τ c, claims τ = some c → c.maplet ≠ m
  building : ∀ τ c, claims τ = some c → m ∉ c.building

def FreshBranch (pvt : Pivot K) (claims : Nat → Option Claim) (a : Nat) : Prop :=
  ¬ InUse pvt claims a ∧ ∀ σ c, claims σ = some c → firstBranch c.inputs ≠ some a

/-- What happens to a claim while its state goes on; something new is fresh. -/
structure Changed (pvt : Pivot K) (claims : Nat → Option Claim) (news : Prop) (c c' : Claim) :
    Prop where
  maplet : c'.maplet = c.maplet
  inputs : c'.inputs = c.inputs
  nodup : c'.outputs.Nodup
  outputs : ∀ a ∈ c'.outputs, a ∈ c.outputs ∨ (news ∧ FreshBranch pvt claims a)
  building : ∀ m ∈ c'.building, m ∈ c.building ∨ m = c.maplet ∨ (news ∧ FreshMaplet pvt claims m)

theorem change (h : Ledger pvt claims) {claims' : Nat → Option Claim} (owner : Nat)
    (hclaims : ∀ σ c', claims' σ = some c' →
      ∃ c, claims σ = some c ∧ Changed pvt claims (σ = owner) c c') : Ledger pvt claims' := by
  refine ⟨h.nonempty, h.maplet, h.nodup, ?_, ?_, ?_, ?_⟩
  · intro σ c' hc'
    obtain ⟨c, hc, hcc⟩ := hclaims σ c' hc'
    refine ⟨hcc.nodup, fun a ha hheld => ?_⟩
    rcases hcc.outputs a ha with ha | ⟨-, hfresh⟩
    · exact (h.outputs σ c hc).2 a ha hheld
    · exact hfresh.1 (Or.inl hheld)
  · intro σ τ c' d' hc' hd' hne a ha ha'
    obtain ⟨c, hc, hcc⟩ := hclaims σ c' hc'
    obtain ⟨d, hd, hdd⟩ := hclaims τ d' hd'
    rcases hcc.outputs a ha with ha | ⟨hσ, hfresh⟩ <;>
      rcases hdd.outputs a ha' with ha' | ⟨hτ, hfresh'⟩
    · exact h.apart σ τ c d hc hd hne a ha ha'
    · exact hfresh'.1 (Or.inr ⟨σ, c, hc, ha⟩)
    · exact hfresh.1 (Or.inr ⟨τ, d, hd, ha'⟩)
    · exact hne (hσ.trans hτ.symm)
  · intro σ c' hc' m hm
    obtain ⟨c, hc, hcc⟩ := hclaims σ c' hc'
    rw [hcc.maplet]
    -- an old maplet is not fresh, and a fresh one is of one state
    have hunused : Unused pvt claims σ m → (∀ τ, τ ≠ σ → τ = owner → ¬ FreshMaplet pvt claims m) →
        Unused pvt claims' σ m := by
      intro hun hnew
      refine ⟨hun.ne_zero, hun.pivot, fun τ d' hd' => ?_, fun τ d' hd' hτ hin => ?_⟩
      · obtain ⟨d, hd, hdd⟩ := hclaims τ d' hd'
        exact hdd.maplet ▸ hun.maplet τ d hd
      · obtain ⟨d, hd, hdd⟩ := hclaims τ d' hd'
        rcases hdd.building m hin with hin | hown | ⟨howner, hfresh⟩
        · exact hun.building τ d hd hτ hin
        · exact hun.maplet τ d hd hown.symm
        · exact hnew τ hτ howner hfresh
    rcases hcc.building m hm with hin | hown | ⟨hσ, hfresh⟩
    · exact (h.building σ c hc m hin).imp_right fun hun =>
        hunused hun fun _ _ _ hfresh => hfresh.building σ c hc hin
    · exact Or.inl hown
    · exact Or.inr (hunused ⟨hfresh.ne_zero, hfresh.pivot, hfresh.maplet, fun τ d hd _ =>
        hfresh.building τ d hd⟩ fun τ hτ howner _ => hτ (howner.trans hσ.symm))
  · intro σ c' hc' hne
    obtain ⟨c, hc, hcc⟩ := hclaims σ c' hc'
    rw [hcc.inputs] at hne
    rcases h.standing σ c hc hne with hfits | hlost | hstale
    · exact Or.inl ⟨hcc.inputs ▸ hfits.1, hcc.maplet.trans hfits.2⟩
    · refine Or.inr (Or.inl ?_)
      rw [Lost, hcc.inputs]
      rintro a ha (hheld | ⟨τ, d', hd', hin⟩)
      · exact hlost a ha (Or.inl hheld)
      · obtain ⟨d, hd, hdd⟩ := hclaims τ d' hd'
        rcases hdd.outputs a hin with hin | ⟨-, hfresh⟩
        · exact hlost a ha (Or.inr ⟨τ, d, hd, hin⟩)
        · exact hfresh.2 σ c hc ha
    · exact Or.inr (Or.inr ⟨hcc.maplet ▸ hstale.1, hcc.maplet ▸ hstale.2⟩)

theorem weaken (h : Ledger pvt claims) {claims' : Nat → Option Claim}
    (hclaims : ∀ σ c', claims' σ = some c' → ∃ c, claims σ = some c ∧ c'.maplet = c.maplet ∧
      c'.inputs = c.inputs ∧ c'.outputs = c.outputs ∧
      ∀ m ∈ c'.building, m ∈ c.building ∨ m = c.maplet) : Ledger pvt claims' := by
  refine h.change 0 fun σ c' hc' => ?_
  obtain ⟨c, hc, hmaplet, hinputs, hout, hbuild⟩ := hclaims σ c' hc'
  exact ⟨c, hc, hmaplet, hinputs, hout ▸ (h.outputs σ c hc).1, fun a ha => Or.inl (hout ▸ ha),
    fun m hm => (hbuild m hm).imp_right Or.inl⟩

theorem build (h : Ledger pvt claims) {σ : Nat} {c : Claim} (hc : claims σ = some c)
    {building : Multiset Nat}
    (hbuilding : ∀ m ∈ building, m ∈ c.building ∨ FreshMaplet pvt claims m) :
    Ledger pvt (Function.update claims σ (some { c with building := building })) := by
  refine h.change σ fun τ d' hd' => ?_
  rcases update_eq_some hd' with ⟨rfl, rfl⟩ | ⟨-, hd⟩
  · exact ⟨c, hc, rfl, rfl, (h.outputs τ c hc).1, fun a ha => Or.inl ha, fun m hm =>
      (hbuilding m hm).imp_right fun hfresh => Or.inr ⟨rfl, hfresh⟩⟩
  · exact ⟨d', hd, rfl, rfl, (h.outputs τ d' hd).1, fun a ha => Or.inl ha, fun m hm => Or.inl hm⟩

theorem output (h : Ledger pvt claims) {σ : Nat} {c : Claim} (hc : claims σ = some c) {o : Nat}
    (hfresh : FreshBranch pvt claims o) {outputs : List Nat} (hperm : outputs.Perm (o :: c.outputs)) :
    Ledger pvt (Function.update claims σ (some { c with outputs := outputs })) := by
  refine h.change σ fun τ d' hd' => ?_
  rcases update_eq_some hd' with ⟨rfl, rfl⟩ | ⟨-, hd⟩
  · have hnot : o ∉ c.outputs := fun hin => hfresh.1 (Or.inr ⟨τ, c, hc, hin⟩)
    refine ⟨c, hc, rfl, rfl, hperm.nodup_iff.mpr (List.nodup_cons.mpr ⟨hnot, (h.outputs τ c hc).1⟩),
      fun a ha => ?_, fun m hm => Or.inl hm⟩
    rcases List.mem_cons.mp (hperm.mem_iff.mp ha) with rfl | ha
    · exact Or.inr ⟨rfl, hfresh⟩
    · exact Or.inl ha
  · exact ⟨d', hd, rfl, rfl, (h.outputs τ d' hd).1, fun a ha => Or.inl ha, fun m hm => Or.inl hm⟩

/-! ## Changes of the pivot -/

/-- Bundles that nobody has heard of. -/
structure FreshBundles (pvt : Pivot K) (claims : Nat → Option Claim) (bundles : List Bundle) :
    Prop where
  nonempty : ∀ b ∈ bundles, b.branches ≠ []
  nodup : (bundles.flatMap (·.branches)).Nodup
  fresh : ∀ a ∈ bundles.flatMap (·.branches), FreshBranch pvt claims a

theorem held_append (pvt : Pivot K) (bundles : List Bundle) :
    ({ pvt with inflight := pvt.inflight ++ bundles } : Pivot K).held =
      pvt.held ++ bundles.flatMap (·.branches) := by
  simp [Pivot.held]

theorem receive (h : Ledger pvt claims) {bundles : List Bundle}
    (hfresh : FreshBundles pvt claims bundles) :
    Ledger { pvt with inflight := pvt.inflight ++ bundles } claims where
  nonempty b hb := by
    rcases List.mem_append.mp hb with hb | hb
    · exact h.nonempty b hb
    · exact hfresh.nonempty b hb
  maplet := h.maplet
  nodup := by
    rw [held_append]
    refine List.nodup_append.mpr ⟨h.nodup, hfresh.nodup, ?_⟩
    rintro a ha a' ha' rfl
    exact (hfresh.fresh a ha').1 (Or.inl ha)
  outputs σ c hc := by
    refine ⟨(h.outputs σ c hc).1, fun a ha hin => ?_⟩
    rw [held_append] at hin
    rcases List.mem_append.mp hin with hin | hin
    · exact (h.outputs σ c hc).2 a ha hin
    · exact (hfresh.fresh a hin).1 (Or.inr ⟨σ, c, hc, ha⟩)
  apart := h.apart
  building σ c hc m hm := (h.building σ c hc m hm).imp_right fun hunused =>
    ⟨hunused.ne_zero, hunused.pivot, hunused.maplet, hunused.building⟩
  standing σ c hc hne := by
    rcases h.standing σ c hc hne with hfits | hlost | hstale
    · exact Or.inl ⟨hfits.1.trans (List.prefix_append _ _), hfits.2⟩
    · refine Or.inr (Or.inl (hlost.mono fun a ha hin => ?_))
      rcases hin with hin | hin
      · rw [held_append] at hin
        rcases List.mem_append.mp hin with hin | hin
        · exact Or.inl hin
        · exact absurd ha ((hfresh.fresh a hin).2 σ c hc)
      · exact Or.inr hin
    · exact Or.inr (Or.inr hstale)

theorem claim (h : Ledger pvt claims) {σ : Nat} {c : Claim}
    (hmaplet : c.maplet = pvt.pivotBundle.maplet) (hinputs : c.inputs = pvt.inflight)
    (hold : (claims σ = none ∧ c.outputs = [] ∧ c.building = 0) ∨
      ∃ d, claims σ = some d ∧ d.maplet = c.maplet ∧ d.outputs = c.outputs ∧
        d.building = c.building) :
    Ledger pvt (Function.update claims σ (some c)) := by
  have hcases : ∀ τ d', Function.update claims σ (some c) τ = some d' →
      (τ = σ ∧ d' = c) ∨ claims τ = some d' := fun τ d' hd' =>
    (update_eq_some hd').imp_right And.right
  have houtputs : ∀ a ∈ c.outputs, ∃ d, claims σ = some d ∧ d.outputs = c.outputs := by
    intro a ha
    rcases hold with ⟨-, hnil, -⟩ | ⟨d, hd, -, hout, -⟩
    · rw [hnil] at ha
      cases ha
    · exact ⟨d, hd, hout⟩
  have hunused : ∀ τ m, Unused pvt claims τ m → Unused pvt (Function.update claims σ (some c)) τ m := by
    intro τ m hun
    refine ⟨hun.ne_zero, hun.pivot, ?_, ?_⟩
    · intro υ e he
      rcases hcases υ e he with ⟨rfl, rfl⟩ | he
      · rw [hmaplet]
        exact hun.pivot.symm
      · exact hun.maplet υ e he
    · intro υ e he hυ
      rcases hcases υ e he with ⟨rfl, rfl⟩ | he
      · rcases hold with ⟨-, -, hnil⟩ | ⟨d, hd, -, -, hbuild⟩
        · rw [hnil]
          exact Multiset.notMem_zero m
        · exact hbuild ▸ hun.building υ d hd hυ
      · exact hun.building υ e he hυ
  refine ⟨h.nonempty, h.maplet, h.nodup, ?_, ?_, ?_, ?_⟩
  · intro τ d' hd'
    rcases hcases τ d' hd' with ⟨rfl, rfl⟩ | hd
    · rcases hold with ⟨-, hnil, -⟩ | ⟨d, hd, -, hout, -⟩
      · rw [hnil]
        exact ⟨List.nodup_nil, fun a ha => nomatch ha⟩
      · exact hout ▸ h.outputs τ d hd
    · exact h.outputs τ d' hd
  · intro τ₁ τ₂ d₁ d₂ h₁ h₂ hne a ha
    rcases hcases τ₁ d₁ h₁ with ⟨hτ₁, hc₁⟩ | hd₁ <;> rcases hcases τ₂ d₂ h₂ with ⟨hτ₂, hc₂⟩ | hd₂
    · exact absurd (hτ₁.trans hτ₂.symm) hne
    · rw [hc₁] at ha
      obtain ⟨d, hd, hout⟩ := houtputs a ha
      exact h.apart τ₁ τ₂ d d₂ (hτ₁ ▸ hd) hd₂ hne a (hout ▸ ha)
    · intro hin
      rw [hc₂] at hin
      obtain ⟨d, hd, hout⟩ := houtputs a hin
      exact h.apart τ₁ τ₂ d₁ d hd₁ (hτ₂ ▸ hd) hne a ha (hout ▸ hin)
    · exact h.apart τ₁ τ₂ d₁ d₂ hd₁ hd₂ hne a ha
  · intro τ d' hd' m hm
    rcases hcases τ d' hd' with ⟨rfl, rfl⟩ | hd
    · rcases hold with ⟨-, -, hnil⟩ | ⟨d, hd, hdm, -, hbuild⟩
      · rw [hnil] at hm
        exact absurd hm (Multiset.notMem_zero m)
      · exact (h.building τ d hd m (hbuild ▸ hm)).imp (fun hown => hown.trans hdm) (hunused τ m)
    · exact (h.building τ d' hd m hm).imp_right (hunused τ m)
  · intro τ d' hd' hne
    rcases hcases τ d' hd' with ⟨rfl, rfl⟩ | hd
    · exact Or.inl ⟨hinputs ▸ List.prefix_rfl, hmaplet⟩
    · rcases h.standing τ d' hd hne with hfits | hlost | hstale
      · exact Or.inl hfits
      · refine Or.inr (Or.inl (hlost.mono fun a ha hin => ?_))
        rcases hin with hin | ⟨υ, e, he, hin⟩
        · exact Or.inl hin
        · rcases hcases υ e he with ⟨rfl, rfl⟩ | he
          · obtain ⟨d, hd, hout⟩ := houtputs a hin
            exact Or.inr ⟨υ, d, hd, hout ▸ hin⟩
          · exact Or.inr ⟨υ, e, he, hin⟩
      · exact Or.inr (Or.inr hstale)

theorem held_split (pvt : Pivot K) (ubkey : K) :
    ({ emptyPivot ubkey with inflight := leafSplitBundles pvt [] } : Pivot K).held = pvt.held := by
  by_cases hbranches : pvt.pivotBundle.branches = []
  · simp [Pivot.held, leafSplitBundles, hbranches, emptyPivot, emptyBundle]
  · simp [Pivot.held, leafSplitBundles, hbranches, emptyPivot, emptyBundle]

theorem split (h : Ledger pvt claims) (ubkey : K) :
    Ledger { emptyPivot ubkey with inflight := leafSplitBundles pvt [] } claims where
  nonempty b hb := by
    by_cases hbranches : pvt.pivotBundle.branches = []
    · exact h.nonempty b (by simpa [leafSplitBundles, hbranches] using hb)
    · have hb' : b = pvt.pivotBundle ∨ b ∈ pvt.inflight := by
        simpa [leafSplitBundles, hbranches] using hb
      rcases hb' with rfl | hb'
      · exact hbranches
      · exact h.nonempty b hb'
  maplet := by simp [emptyPivot, emptyBundle]
  nodup := (held_split pvt ubkey).symm ▸ h.nodup
  outputs := (held_split pvt ubkey).symm ▸ h.outputs
  apart := h.apart
  building σ c hc m hm := (h.building σ c hc m hm).imp_right fun hunused =>
    ⟨hunused.ne_zero, hunused.ne_zero, hunused.maplet, hunused.building⟩
  standing σ c hc hne := by
    rcases h.standing σ c hc hne with hfits | hlost | hstale
    · by_cases hbranches : pvt.pivotBundle.branches = []
      · refine Or.inl ⟨?_, hfits.2.trans (h.maplet.mpr hbranches)⟩
        simpa [leafSplitBundles, hbranches] using hfits.1
      · -- the pivot bundle is in front now, but the state was built on its maplet
        have hne' : c.maplet ≠ 0 := by
          rw [hfits.2]
          exact fun hzero => hbranches (h.maplet.mp hzero)
        exact Or.inr (Or.inr ⟨hne', hne'⟩)
    · refine Or.inr (Or.inl (hlost.mono fun a _ hin => ?_))
      exact hin.imp_left fun hheld => (held_split pvt ubkey) ▸ hheld
    · exact Or.inr (Or.inr ⟨hstale.1, hstale.1⟩)

theorem flush (h : Ledger pvt claims) (ubkey : K) : Ledger (emptyPivot ubkey) claims where
  nonempty := by simp [emptyPivot]
  maplet := by simp [emptyPivot, emptyBundle]
  nodup := by simp [Pivot.held, emptyPivot, emptyBundle]
  outputs σ c hc := ⟨(h.outputs σ c hc).1, by simp [Pivot.held, emptyPivot, emptyBundle]⟩
  apart := h.apart
  building σ c hc m hm := (h.building σ c hc m hm).imp_right fun hunused =>
    ⟨hunused.ne_zero, hunused.ne_zero, hunused.maplet, hunused.building⟩
  standing σ c hc hne := by
    have hheld : (emptyPivot ubkey).held = [] := by simp [Pivot.held, emptyPivot, emptyBundle]
    rcases h.standing σ c hc hne with hfits | hlost | hstale
    · refine Or.inr (Or.inl ?_)
      rintro a ha (hin | ⟨τ, d, hd, hin⟩)
      · rw [hheld] at hin
        cases hin
      · rw [firstBranch_of_front hfits.1 hne] at ha
        exact (h.outputs τ d hd).2 a hin (mem_held_of_firstBranch ha)
    · refine Or.inr (Or.inl (hlost.mono fun a _ hin => ?_))
      rw [InUse, hheld] at hin
      exact Or.inr (hin.resolve_left List.not_mem_nil)
    · exact Or.inr (Or.inr ⟨hstale.1, hstale.1⟩)

private theorem mem_held_applyToPivot {m k : Nat} {outs : List Nat} {a : Nat} :
    a ∈ (applyToPivot pvt m outs k).held ↔
      a ∈ pvt.pivotBundle.branches ∨ a ∈ outs ∨
        a ∈ (pvt.inflight.drop k).flatMap (·.branches) := by
  simp only [Pivot.held, applyToPivot, List.mem_append, or_assoc]

private theorem drop_held_subset (pvt : Pivot K) (k : Nat) :
    ((pvt.inflight.drop k).flatMap (·.branches)).Sublist (pvt.inflight.flatMap (·.branches)) :=
  (List.drop_sublist k pvt.inflight).flatMap _

private theorem firstBranch_not_mem_drop (h : Ledger pvt claims) {a k : Nat} (hk : 0 < k)
    (ha : firstBranch pvt.inflight = some a) :
    a ∉ pvt.pivotBundle.branches ∧ a ∉ (pvt.inflight.drop k).flatMap (·.branches) := by
  obtain ⟨b, hb, hab⟩ := Option.bind_eq_some_iff.mp ha
  obtain ⟨rest, hrest⟩ : ∃ rest, pvt.inflight = b :: rest := by
    cases hinflight : pvt.inflight with
    | nil => rw [hinflight] at hb; cases hb
    | cons b' rest =>
        rw [hinflight] at hb
        exact ⟨rest, by rw [Option.some.inj hb]⟩
  have hbranch : a ∈ b.branches := List.mem_of_head? hab
  have hnodup : (pvt.pivotBundle.branches ++ (b.branches ++ rest.flatMap (·.branches))).Nodup := by
    have hheld := h.nodup
    rw [Pivot.held, hrest, List.flatMap_cons] at hheld
    exact hheld
  obtain ⟨-, htail, hpivot⟩ := List.nodup_append.mp hnodup
  obtain ⟨-, -, happart⟩ := List.nodup_append.mp htail
  refine ⟨fun hin => hpivot a hin a (List.mem_append_left _ hbranch) rfl, fun hin => ?_⟩
  obtain ⟨n, rfl⟩ : ∃ n, k = n + 1 := ⟨k - 1, by omega⟩
  rw [hrest, List.drop_succ_cons] at hin
  have hsub : a ∈ rest.flatMap (·.branches) :=
    ((List.drop_sublist n rest).flatMap _).subset hin
  exact happart a hbranch a hsub rfl

theorem apply (h : Ledger pvt claims) {σ : Nat} {c : Claim} (hc : claims σ = some c)
    (hfits : Fits pvt c) {m k : Nat} {outs rest : List Nat} (hm : m ∈ c.building)
    (hk : 0 < k) (houts : c.outputs = outs ++ rest)
    (hzero : (outs = [] ∧ m = c.maplet) ∨ (outs ≠ [] ∧ m ≠ 0)) :
    Ledger (applyToPivot pvt m outs k)
      (Function.update claims σ (some ⟨m, c.inputs.drop k, rest, 0⟩)) := by
  have hcases : ∀ τ d', Function.update claims σ (some ⟨m, c.inputs.drop k, rest, 0⟩) τ = some d' →
      (τ = σ ∧ d' = ⟨m, c.inputs.drop k, rest, 0⟩) ∨ (τ ≠ σ ∧ claims τ = some d') :=
    fun _ _ => update_eq_some
  obtain ⟨hnd, hnotHeld⟩ := h.outputs σ c hc
  rw [houts] at hnd hnotHeld
  obtain ⟨houtsNd, hrestNd, hdisj⟩ := List.nodup_append.mp hnd
  have hinOuts : ∀ a ∈ outs, a ∈ c.outputs := fun a ha => houts ▸ List.mem_append_left _ ha
  have hinRest : ∀ a ∈ rest, a ∈ c.outputs := fun a ha => houts ▸ List.mem_append_right _ ha
  have hheldDrop : ∀ a, a ∈ pvt.pivotBundle.branches ∨
      a ∈ (pvt.inflight.drop k).flatMap (·.branches) → a ∈ pvt.held := by
    rintro a (ha | ha)
    · exact List.mem_append_left _ ha
    · exact List.mem_append_right _ ((drop_held_subset pvt k).subset ha)
  have huse : ∀ a, InUse (applyToPivot pvt m outs k)
      (Function.update claims σ (some ⟨m, c.inputs.drop k, rest, 0⟩)) a → InUse pvt claims a := by
    rintro a (hin | ⟨τ, d', hd', hin⟩)
    · rcases mem_held_applyToPivot.mp hin with hin | hin | hin
      · exact Or.inl (hheldDrop a (Or.inl hin))
      · exact Or.inr ⟨σ, c, hc, hinOuts a hin⟩
      · exact Or.inl (hheldDrop a (Or.inr hin))
    · rcases hcases τ d' hd' with ⟨-, rfl⟩ | ⟨-, hd⟩
      · exact Or.inr ⟨σ, c, hc, hinRest a hin⟩
      · exact Or.inr ⟨τ, d', hd, hin⟩
  refine ⟨?_, ?_, ?_, ?_, ?_, ?_, ?_⟩
  · intro b hb
    exact h.nonempty b (List.mem_of_mem_drop hb)
  · change m = 0 ↔ pvt.pivotBundle.branches ++ outs = []
    rcases hzero with ⟨hnil, hmaplet⟩ | ⟨hne, hm0⟩
    · rw [hnil, List.append_nil, hmaplet, hfits.2]
      exact h.maplet
    · exact ⟨fun h0 => absurd h0 hm0, fun hnil => absurd (List.append_eq_nil_iff.mp hnil).2 hne⟩
  · change ((pvt.pivotBundle.branches ++ outs) ++ (pvt.inflight.drop k).flatMap (·.branches)).Nodup
    have hold : (pvt.pivotBundle.branches ++ (pvt.inflight.drop k).flatMap (·.branches)).Nodup :=
      h.nodup.sublist ((drop_held_subset pvt k).append_left _)
    obtain ⟨hpb, hdrop, hpbDrop⟩ := List.nodup_append.mp hold
    have hapart : ∀ a ∈ outs, a ∉ pvt.held := fun a ha => hnotHeld a (List.mem_append_left _ ha)
    refine List.nodup_append.mpr ⟨List.nodup_append.mpr ⟨hpb, houtsNd, ?_⟩, hdrop, ?_⟩
    · rintro a ha a' ha' rfl
      exact hapart a ha' (hheldDrop a (Or.inl ha))
    · rintro a ha a' ha' rfl
      rcases List.mem_append.mp ha with ha | ha
      · exact hpbDrop a ha a ha' rfl
      · exact hapart a ha (hheldDrop a (Or.inr ha'))
  · intro τ d' hd'
    rcases hcases τ d' hd' with ⟨-, rfl⟩ | ⟨hτ, hd⟩
    · refine ⟨hrestNd, fun a ha hin => ?_⟩
      rcases mem_held_applyToPivot.mp hin with hin | hin | hin
      · exact hnotHeld a (List.mem_append_right _ ha) (hheldDrop a (Or.inl hin))
      · exact hdisj a hin a ha rfl
      · exact hnotHeld a (List.mem_append_right _ ha) (hheldDrop a (Or.inr hin))
    · refine ⟨(h.outputs τ d' hd).1, fun a ha hin => ?_⟩
      rcases mem_held_applyToPivot.mp hin with hin | hin | hin
      · exact (h.outputs τ d' hd).2 a ha (hheldDrop a (Or.inl hin))
      · exact h.apart τ σ d' c hd hc hτ a ha (hinOuts a hin)
      · exact (h.outputs τ d' hd).2 a ha (hheldDrop a (Or.inr hin))
  · intro τ₁ τ₂ d₁ d₂ h₁ h₂ hne a ha
    rcases hcases τ₁ d₁ h₁ with ⟨hτ₁, rfl⟩ | ⟨hτ₁, hd₁⟩ <;>
      rcases hcases τ₂ d₂ h₂ with ⟨hτ₂, rfl⟩ | ⟨hτ₂, hd₂⟩
    · exact absurd (hτ₁.trans hτ₂.symm) hne
    · exact h.apart σ τ₂ c d₂ hc hd₂ (Ne.symm hτ₂) a (hinRest a ha)
    · exact fun hin => h.apart τ₁ σ d₁ c hd₁ hc hτ₁ a ha (hinRest a hin)
    · exact h.apart τ₁ τ₂ d₁ d₂ hd₁ hd₂ hne a ha
  · intro τ d' hd' m' hm'
    rcases hcases τ d' hd' with ⟨-, rfl⟩ | ⟨hτ, hd⟩
    · exact absurd hm' (Multiset.notMem_zero m')
    · refine (h.building τ d' hd m' hm').imp_right fun hunused => ?_
      have hne : m' ≠ m := fun heq => hunused.building σ c hc (Ne.symm hτ) (heq ▸ hm)
      refine ⟨hunused.ne_zero, hne, ?_, ?_⟩
      · intro υ e he
        rcases hcases υ e he with ⟨-, rfl⟩ | ⟨-, he⟩
        · exact Ne.symm hne
        · exact hunused.maplet υ e he
      · intro υ e he hυ
        rcases hcases υ e he with ⟨-, rfl⟩ | ⟨-, he⟩
        · exact Multiset.notMem_zero m'
        · exact hunused.building υ e he hυ
  · intro τ d' hd' hne
    rcases hcases τ d' hd' with ⟨-, rfl⟩ | ⟨hτ, hd⟩
    · exact Or.inl ⟨hfits.1.drop k, rfl⟩
    · rcases h.standing τ d' hd hne with hfits' | hlost | hstale
      · refine Or.inr (Or.inl ?_)
        intro a ha hin
        rw [firstBranch_of_front hfits'.1 hne] at ha
        obtain ⟨hpb, hdrop⟩ := h.firstBranch_not_mem_drop hk ha
        have hheld : a ∈ pvt.held := mem_held_of_firstBranch ha
        rcases hin with hin | ⟨υ, e, he, hin⟩
        · rcases mem_held_applyToPivot.mp hin with hin | hin | hin
          · exact hpb hin
          · exact hnotHeld a (List.mem_append_left _ hin) hheld
          · exact hdrop hin
        · rcases hcases υ e he with ⟨-, rfl⟩ | ⟨-, he⟩
          · exact hnotHeld a (List.mem_append_right _ hin) hheld
          · exact (h.outputs υ e he).2 a hin hheld
      · exact Or.inr (Or.inl (hlost.mono fun a _ => huse a))
      · refine Or.inr (Or.inr ⟨hstale.1, ?_⟩)
        rcases h.building σ c hc m hm with hown | hunused
        · change d'.maplet ≠ m
          rw [hown, hfits.2]
          exact hstale.2
        · exact hunused.maplet τ d' hd

end Ledger

end Trunk
end TreePass
