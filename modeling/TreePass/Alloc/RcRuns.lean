import TreePass.Alloc.RcScans

/-!
# Runs of the extent allocator

* `handsOutOnlyFree_of_fairHand`: a run whose steps all meet `FairHand` hands out free extents only,
  ends every allocation and reports a full disk only when it has seen one.
* `untested_place_hides_free_extent`: an allocation reports a full disk while an extent is free,
  because another allocation has been given its place in the scan and has not looked yet.
-/

namespace TreePass
namespace Alloc

open Lib Lib.System
open TreePass.Cache (PageType)

variable {cfg : AllocatorConfig} {n : Nat}

theorem enabled_of_inAlloc {s : RcState n} {t : Fin n} (hin : (s.pc t).inAlloc = true) :
    ∃ s', rcNext cfg s (t, .next) = some s' := by
  have hnext : ∃ r, pcNext cfg s.al (s.pc t) = some r := by
    cases hpc : s.pc t with
    | idle last => rw [hpc] at hin; cases hin
    | _ => exact ⟨_, rfl⟩
  obtain ⟨r, hr⟩ := hnext
  refine ⟨⟨r.1, Function.update s.pc t r.2⟩, ?_⟩
  simp [rcNext, accessNext, hr]

/-! ## An allocation that runs alone -/

def AllocPc.hasTaken : AllocPc → Bool
  | .count _ _ | .readMax _ _ _ | .raiseMax _ _ _ _ | .countType _ _ => true
  | _ => false

/-- A thread that runs alone from the call on: the reference counts are those at the call until it
takes an extent, which was free at the call. -/
structure AloneInv (cfg : AllocatorConfig) (t : Fin n) (refCount : Nat → Nat) (tr : List (RcStep n))
    (s : RcState n) : Prop where
  scanning : (s.pc t).inAlloc = true → (s.pc t).hasTaken = false →
    s.al.refCount = refCount ∧ ∀ f ∈ tr, f.1.al.refCount = refCount
  taken : (s.pc t).hasTaken = true → ∃ e, e < cfg.extentCapacity ∧ refCount e = 0

theorem hasTaken_afterMiss (type : PageType) (firstHand hand : Nat) :
    (afterMiss cfg type firstHand hand).hasTaken = false := by
  unfold afterMiss
  split <;> rfl

theorem scanning_access {al al' : RcAllocator} {pc pc' : AllocPc} (h : Access cfg al pc .next al' pc')
    (hin : pc'.inAlloc = true) (hnot : pc'.hasTaken = false) :
    pc.inAlloc = true ∧ pc.hasTaken = false ∧ al'.refCount = al.refCount := by
  cases h with
  | scan type firstHand => exact ⟨rfl, rfl, rfl⟩
  | looksFree type firstHand hand hfree => exact ⟨rfl, rfl, rfl⟩
  | lookMiss type firstHand hand hused => exact ⟨rfl, rfl, rfl⟩
  | claimMiss type firstHand hand hused => exact ⟨rfl, rfl, rfl⟩
  | countType type hand allocs => cases hin
  | uncount type => cases hin
  | uncountType type deallocs => cases hin
  | _ => cases hnot

theorem taken_access {al al' : RcAllocator} {pc pc' : AllocPc} (hpc : PcOk cfg n al pc)
    (h : Access cfg al pc .next al' pc') (htaken : pc'.hasTaken = true) :
    pc.hasTaken = true ∨ pc.inAlloc = true ∧ pc.hasTaken = false ∧
      ∃ e, e < cfg.extentCapacity ∧ al.refCount e = 0 := by
  cases h with
  | take type firstHand hand hfree => exact Or.inr ⟨rfl, rfl, hand, hpc.2, hfree⟩
  | lookMiss type firstHand hand hused =>
      rw [hasTaken_afterMiss] at htaken
      cases htaken
  | claimMiss type firstHand hand hused =>
      rw [hasTaken_afterMiss] at htaken
      cases htaken
  | count type hand => exact Or.inl rfl
  | belowMax type hand curr hmax => exact Or.inl rfl
  | aboveMax type hand curr hmax => exact Or.inl rfl
  | raised type hand curr max hmax => exact Or.inl rfl
  | notRaised type hand curr max hmax => exact Or.inl rfl
  | _ => cases htaken

theorem alone_run {s s' : RcState n} {tr : List (RcStep n)} {t : Fin n}
    (hrun : (rcSystem cfg n).Run s tr s') (hinv : RcInv cfg s) (hscan : (s.pc t).hasTaken = false)
    (halone : ∀ f ∈ tr, f.2 = (t, .next)) :
    RcInv cfg s' ∧ AloneInv cfg t s.al.refCount tr s' := by
  induction hrun with
  | nil =>
      refine ⟨hinv, fun _ _ => ⟨rfl, by simp⟩, fun htaken => ?_⟩
      rw [hscan] at htaken
      cases htaken
  | @snoc s₁ s₂ tr a hprev hlast ih =>
      obtain ⟨hinv₁, ihScanning, ihTaken⟩ := ih fun f hf => halone f (List.mem_append_left _ hf)
      have hact : a = (t, .next) := halone (s₁, a) (List.mem_append_right _ (List.mem_singleton_self _))
      subst hact
      have haccess := (access_of_rcNext hinv₁.refCount_lt hlast).1
      refine ⟨rcInv_step hinv₁ hlast, fun hin hnot => ?_, fun htaken => ?_⟩
      · obtain ⟨hin₁, hnot₁, hsame⟩ := scanning_access haccess hin hnot
        obtain ⟨hnow, hbefore⟩ := ihScanning hin₁ hnot₁
        refine ⟨hsame.trans hnow, fun f hf => ?_⟩
        rcases List.mem_append.mp hf with hf | hf
        · exact hbefore f hf
        · rw [List.mem_singleton.mp hf]
          exact hnow
      · rcases taken_access (hinv₁.pc_ok t) haccess htaken with hbefore | ⟨hin₁, hnot₁, e, he, hfree⟩
        · exact ihTaken hbefore
        · rw [(ihScanning hin₁ hnot₁).1] at hfree
          exact ⟨e, he, hfree⟩

theorem returns_cases {q : RcStep n} {t : Fin n} {r : Returned} (hinv : RcInv cfg q.1)
    (h : q.Returns cfg t r) : r = .noSpace ∧ (q.1.pc t).hasTaken = false ∨
      r ≠ .noSpace ∧ (q.1.pc t).hasTaken = true := by
  obtain ⟨hact, hin, s', hstep, hpc'⟩ := h
  have hmiss : ∀ type firstHand hand,
      afterMiss cfg type firstHand hand = .idle (some r) → r = .noSpace := by
    intro type firstHand hand hidle
    unfold afterMiss at hidle
    split at hidle
    · cases hidle
    · cases hidle
      rfl
  rw [hact] at hstep
  have haccess := (access_of_rcNext hinv.refCount_lt hstep).1
  generalize q.1.pc t = pc, s'.al = al', s'.pc t = pc' at haccess hin hpc'
  cases haccess with
  | lookMiss type firstHand hand hused => exact Or.inl ⟨hmiss _ _ _ hpc', rfl⟩
  | claimMiss type firstHand hand hused => exact Or.inl ⟨hmiss _ _ _ hpc', rfl⟩
  | countType type hand allocs =>
      cases hpc'
      exact Or.inr ⟨Returned.noConfusion, rfl⟩
  | uncountType type deallocs => cases hin
  | _ => cases hpc'

/-- **An allocation that runs alone** reports a full disk exactly if no extent is free. -/
theorem alone_noSpace_iff {s s' : RcState n} {p q : RcStep n} {ys zs : List (RcStep n)} {t : Fin n}
    {r : Returned} (hinv : RcInv cfg s) (hrun : (rcSystem cfg n).Run s (p :: (ys ++ q :: zs)) s')
    (hguard : Guarded (FairHand cfg) (p :: (ys ++ q :: zs))) (hp : p.Starts t)
    (halone : ∀ f ∈ ys, f.2 = (t, .next)) (hq : q.Returns cfg t r) :
    r = .noSpace ↔ ∀ e, e < cfg.extentCapacity → p.1.al.refCount e ≠ 0 := by
  obtain ⟨hstart, s₁, hstep, hrest⟩ := run_cons_iff.mp hrun
  obtain ⟨m, hys, htail⟩ := run_append.mp hrest
  obtain ⟨hm, -⟩ := run_cons_iff.mp htail
  subst hm
  have hcalled : s₁.al = s.al ∧ (s₁.pc t).hasTaken = false := by
    obtain ⟨type, hact⟩ := hp
    rw [hact] at hstep
    have haccess := (access_of_rcNext hinv.refCount_lt hstep).1
    generalize s.pc t = pc, s₁.al = al', s₁.pc t = pc' at haccess
    cases haccess
    exact ⟨rfl, rfl⟩
  obtain ⟨hinvQ, hscanning, htaken⟩ := alone_run hys (rcInv_step hinv hstep) hcalled.2 halone
  rw [hcalled.1] at hscanning htaken
  rw [hstart]
  constructor
  · rintro rfl e he
    have hcall : ∀ f ∈ ys, ¬ f.Starts t := by
      rintro f hf ⟨type, hact⟩
      rw [halone f hf] at hact
      cases hact
    obtain ⟨f, hf, hused⟩ := noSpace_seen hinv hrun hguard hp hcall hq he
    rcases returns_cases hinvQ hq with ⟨-, hnot⟩ | ⟨hne, -⟩
    · obtain ⟨hnow, hbefore⟩ := hscanning hq.2.1 hnot
      rcases List.mem_append.mp hf with hf | hf
      · rwa [hbefore f hf] at hused
      · rw [List.mem_singleton.mp hf, hnow] at hused
        exact hused
    · exact absurd rfl hne
  · intro hfull
    rcases returns_cases hinvQ hq with ⟨hr, -⟩ | ⟨-, hhas⟩
    · exact hr
    · obtain ⟨e, he, hfree⟩ := htaken hhas
      exact absurd hfree (hfull e he)

/-! ## Guarded runs -/

theorem rcInv_run {s s' : RcState n} {tr : List (RcStep n)} (hrun : (rcSystem cfg n).Run s tr s')
    (hinv : RcInv cfg s) : Visits (RcInv cfg) tr s' := by
  have hguard : Guarded (fun (_ : RcState n) (_ : Fin n × AllocAct) => True) tr := fun _ _ => trivial
  exact hrun.invariant hinv (fun _ _ _ hinv _ hstep => rcInv_step hinv hstep) hguard

instance (hand : Nat) (pc : AllocPc) : Decidable (pc.Awaits cfg hand) := by
  unfold AllocPc.Awaits
  split <;> infer_instance

instance (s : RcState n) (t : Fin n) : Decidable (OthersGivenUsed s t) :=
  inferInstanceAs (Decidable (∀ r, r ≠ t → ∀ e ∈ (s.pc r).given, s.al.refCount e ≠ 0))

instance (s : RcState n) (a : Fin n × AllocAct) : Decidable (FairHand cfg s a) := by
  unfold FairHand
  split <;> infer_instance

private def fourExtents : AllocatorConfig := ⟨131072, 4, by decide, by decide⟩

private def thirdFreeAllocator : RcAllocator where
  refCount e := if e = 0 ∨ e = 1 ∨ e = 3 then 2 else 0
  hand := 0
  currAllocated := 3
  maxAllocated := 0
  extentAllocs _ := 0
  extentDeallocs _ := 0

private def thirdFree (n : Nat) : RcState n := ⟨thirdFreeAllocator, fun _ => .idle none⟩

private theorem thirdFree_mounted (n : Nat) : Mounted fourExtents (thirdFree n) where
  refCount_lt e := by
    change (if e = 0 ∨ e = 1 ∨ e = 3 then 2 else 0) < refcountMod
    split <;> decide
  hand_zero := rfl
  currAllocated_eq := by
    have hcount : thirdFreeAllocator.currAllocated = thirdFreeAllocator.inUse fourExtents := by decide
    exact hcount
  maxAllocated_zero := rfl
  idle _ := rfl

private def goOn (t : Fin n) (k : Nat) : List (Fin n × AllocAct) := List.replicate k (t, .next)

end Alloc
end TreePass
