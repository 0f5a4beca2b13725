import TreePass.Alloc.RcCounts
import Mathlib.Data.Nat.ModEq

/-!
# The scans of the extent allocator

A scan ends when the hand it was given is the one before the hand it began with.  The hand is
shared, so another allocation may be given that last place, and the scan goes on; and a place given
to another allocation has not been looked at when the scan ends.

* `HandsOutOnlyFree` is what the allocator is for.
* `FairHand` is the condition on a step: the hand does not wrap round its word, the last place of a
  scan is given to the scan itself, and an allocation gives up only while every extent that other
  allocations have been given and not tested is in use.
* `rank_step`, `accesses_le_rank`: under the condition every scan ends.
* `ScanInv`: every place from the start of a scan to the hand has been seen in use or is still to be
  tested by the allocation it was given to.
-/

namespace TreePass
namespace Alloc

open Lib Lib.System
open TreePass.Cache (PageType)

variable {n : Nat}

/-! ## What the allocator is for -/

/-- The thread is inside `rc_allocator_alloc`. -/
def AllocPc.inAlloc : AllocPc → Bool
  | .idle _ | .uncount _ | .uncountType _ => false
  | _ => true

/-- The extent the hand has given and the thread has not finished testing. -/
def AllocPc.given : AllocPc → Option Nat
  | .look _ _ hand | .claim _ _ hand => some hand
  | _ => none

/-- A step of a run: the state before it, the thread and its access. -/
abbrev RcStep (n : Nat) : Type := RcState n × (Fin n × AllocAct)

namespace RcStep

variable (cfg : AllocatorConfig)

/-- Thread `t` calls `rc_allocator_alloc`. -/
def Starts (p : RcStep n) (t : Fin n) : Prop := ∃ type, p.2 = (t, .alloc type)

/-- Thread `t` takes extent `e`. -/
def Takes (p : RcStep n) (t : Fin n) (e : Nat) : Prop :=
  p.2 = (t, .next) ∧ p.1.al.refCount e = 0 ∧ ∃ type firstHand, p.1.pc t = .claim type firstHand e

/-- The reference count of extent `e` goes back to 0. -/
def Frees (p : RcStep n) (e : Nat) : Prop :=
  p.1.al.refCount e = 1 ∧ ∃ addr type, p.2.2 = .decRef addr type ∧ addr / cfg.extentSize = e

/-- Thread `t` returns from an allocation with `r`. -/
def Returns (p : RcStep n) (t : Fin n) (r : Returned) : Prop :=
  p.2 = (t, .next) ∧ (p.1.pc t).inAlloc = true ∧
    ∃ s', rcNext cfg p.1 p.2 = some s' ∧ s'.pc t = .idle (some r)

end RcStep

variable (cfg : AllocatorConfig)

def maxAccesses (n : Nat) : Nat := 3 * cfg.extentCapacity + 2 * (cfg.extentCapacity + n) + 5

/-- The number of accesses of thread `t`. -/
def accesses (t : Fin n) (tr : List (RcStep n)) : Nat := tr.countP fun p => p.2.1 = t

/-- What the extent allocator promises of a run. -/
structure HandsOutOnlyFree (tr : List (RcStep n)) (last : RcState n) : Prop where
  /-- An extent is not taken again before its reference count has gone back to 0. -/
  again : ∀ xs p ys q zs t r e, tr = xs ++ p :: (ys ++ q :: zs) → RcStep.Takes p t e →
    RcStep.Takes q r e → ∃ f ∈ ys, RcStep.Frees cfg f e
  /-- An allocation is never stuck. -/
  enabled : Visits (fun s => ∀ t, (s.pc t).inAlloc = true → ∃ s', rcNext cfg s (t, .next) = some s')
    tr last
  /-- An allocation ends. -/
  ends : ∀ xs ys zs t, tr = xs ++ (ys ++ zs) → (∀ p ∈ ys, (p.1.pc t).inAlloc = true) →
    accesses t ys ≤ maxAccesses cfg n
  /-- `STATUS_NO_SPACE` is returned only if every extent was in use at some moment of the call. -/
  noSpace : ∀ xs p ys q zs t, tr = xs ++ p :: (ys ++ q :: zs) → p.Starts t →
    (∀ f ∈ ys, ¬ f.Starts t) → q.Returns cfg t .noSpace →
    ∀ e, e < cfg.extentCapacity → ∃ f ∈ ys ++ [q], f.1.al.refCount e ≠ 0
  /-- When the allocation runs alone, exactly if no extent is free. -/
  alone : ∀ xs p ys q zs t r, tr = xs ++ p :: (ys ++ q :: zs) → p.Starts t →
    (∀ u, u ≠ t → ∃ last, p.1.pc u = .idle last) → (∀ f ∈ ys, f.2 = (t, .next)) →
    q.Returns cfg t r →
    (r = .noSpace ↔ ∀ e, e < cfg.extentCapacity → p.1.al.refCount e ≠ 0)
  /-- When no operation is in progress, `curr_allocated` is the number of extents in use. -/
  quiescent : Visits (fun s => s.Quiescent → s.al.currAllocated = s.al.inUse cfg) tr last

/-! ## The condition on a step -/

/-- The thread is in a scan that has not been given its last place, and the next place of the hand
is this last place. -/
def AllocPc.Awaits (hand : Nat) : AllocPc → Prop
  | .scan _ firstHand => (hand + 1) % cfg.extentCapacity = firstHand
  | .look _ firstHand given | .claim _ firstHand given =>
      (given + 1) % cfg.extentCapacity ≠ firstHand ∧ (hand + 1) % cfg.extentCapacity = firstHand
  | _ => False

/-- Every extent that threads other than `t` have been given and not tested is in use. -/
def OthersGivenUsed (s : RcState n) (t : Fin n) : Prop :=
  ∀ r, r ≠ t → ∀ e ∈ (s.pc r).given, s.al.refCount e ≠ 0

def FairHand (s : RcState n) (a : Fin n × AllocAct) : Prop :=
  match a.2, s.pc a.1 with
  | .next, .scan _ _ =>
      s.al.hand + 1 < handMod ∧ ∀ r, r ≠ a.1 → ¬ (s.pc r).Awaits cfg s.al.hand
  | .next, .look _ firstHand hand | .next, .claim _ firstHand hand =>
      s.al.refCount hand ≠ 0 → (hand + 1) % cfg.extentCapacity = firstHand → OthersGivenUsed s a.1
  | _, _ => True

variable {cfg}

theorem FairHand.scan {s : RcState n} {u : Fin n} {act : AllocAct} (h : FairHand cfg s (u, act))
    {type : PageType} {firstHand : Nat} (hpc : s.pc u = .scan type firstHand) (hact : act = .next) :
    s.al.hand + 1 < handMod ∧ ∀ r, r ≠ u → ¬ (s.pc r).Awaits cfg s.al.hand := by
  subst hact
  simpa only [FairHand, hpc] using h

/-! ## No extent is handed out twice -/

theorem access_live {al al' : RcAllocator} {pc pc' : AllocPc} {act : AllocAct} {e : Nat}
    (h : Access cfg al pc act al' pc') (hlive : al.refCount e ≠ 0)
    (hkeeps : ¬ (al.refCount e = 1 ∧ ∃ addr type, act = .decRef addr type ∧ addr / cfg.extentSize = e)) :
    al'.refCount e ≠ 0 := by
  have hset : ∀ e' count, (e = e' → count ≠ 0) → (al.setRef e' count).refCount e ≠ 0 := by
    intro e' count hcount
    by_cases he : e = e'
    · subst he
      rw [RcAllocator.setRef_self]
      exact hcount rfl
    · rw [RcAllocator.setRef_of_ne al count he]
      exact hlive
  cases h with
  | incRef last addr hextent hused hroom => exact hset _ _ fun _ => Nat.succ_ne_zero _
  | decRef last addr type hextent hmore => exact hset _ _ fun _ => by omega
  | free last addr type hextent hlast =>
      refine hset _ _ fun he => absurd ?_ hkeeps
      exact ⟨he ▸ hlast, addr, type, rfl, he.symm⟩
  | take type firstHand hand hfree => exact hset _ _ fun _ => by decide
  | _ => exact hlive

theorem live_run {s s' : RcState n} {tr : List (RcStep n)} {e : Nat} (hrun : (rcSystem cfg n).Run s tr s')
    (hinv : RcInv cfg s) (hlive : s.al.refCount e ≠ 0) (hkeeps : ∀ f ∈ tr, ¬ RcStep.Frees cfg f e) :
    s'.al.refCount e ≠ 0 := by
  have hguard : Guarded (fun s a => ¬ RcStep.Frees cfg (s, a) e) tr := fun p hp => hkeeps p hp
  have hvisits : Visits (fun s => RcInv cfg s ∧ s.al.refCount e ≠ 0) tr s' := by
    refine hrun.invariant ⟨hinv, hlive⟩ ?_ hguard
    rintro s a s' ⟨hinv, hlive⟩ hguard hstep
    have haccess := (access_of_rcNext hinv.refCount_lt hstep).1
    exact ⟨rcInv_step hinv hstep, access_live haccess hlive hguard⟩
  exact hvisits.last.2

theorem taken_again {s s' : RcState n} {p q : RcStep n} {ys zs : List (RcStep n)} {t r : Fin n} {e : Nat}
    (hinv : RcInv cfg s) (hrun : (rcSystem cfg n).Run s (p :: (ys ++ q :: zs)) s')
    (hp : RcStep.Takes p t e) (hq : RcStep.Takes q r e) : ∃ f ∈ ys, RcStep.Frees cfg f e := by
  by_contra hnot
  have hnone : ∀ f ∈ ys, ¬ RcStep.Frees cfg f e := fun f hf hfrees => hnot ⟨f, hf, hfrees⟩
  obtain ⟨rfl, s₁, hstep, hrest⟩ := run_cons_iff.mp hrun
  obtain ⟨m, hys, htail⟩ := run_append.mp hrest
  obtain ⟨rfl, -⟩ := run_cons_iff.mp htail
  obtain ⟨hact, hfree, type, firstHand, hpc⟩ := hp
  have haccess := (access_of_rcNext hinv.refCount_lt (hact ▸ hstep)).1
  rw [hpc] at haccess
  have htaken : s₁.al.refCount e ≠ 0 := by
    generalize s₁.al = al', s₁.pc t = pc' at haccess
    cases haccess with
    | take => simp
    | claimMiss type firstHand hand hused => exact absurd hfree hused
  exact live_run hys (rcInv_step hinv hstep) htaken hnone hq.2.1

/-! ## Every scan ends -/

variable (cfg) in
/-- The places from the hand to the last one of a scan that began at `firstHand`. -/
def placesLeft (hand firstHand : Nat) : Nat :=
  if hand % cfg.extentCapacity < firstHand then firstHand - hand % cfg.extentCapacity
  else cfg.extentCapacity + firstHand - hand % cfg.extentCapacity

theorem placesLeft_le (hand : Nat) {firstHand : Nat} (hfirst : firstHand < cfg.extentCapacity) :
    placesLeft cfg hand firstHand ≤ cfg.extentCapacity := by
  unfold placesLeft
  split <;> omega

theorem placesLeft_pos (hand firstHand : Nat) : 0 < placesLeft cfg hand firstHand := by
  have hmod := Nat.mod_lt hand cfg.extentCapacity_pos
  unfold placesLeft
  split <;> omega

theorem placesLeft_succ {hand firstHand : Nat} (hfirst : firstHand < cfg.extentCapacity)
    (hmore : (hand + 1) % cfg.extentCapacity ≠ firstHand) :
    placesLeft cfg (hand + 1) firstHand + 1 = placesLeft cfg hand firstHand := by
  have hmod := Nat.mod_lt hand cfg.extentCapacity_pos
  have hsucc := Nat.mod_add_mod hand cfg.extentCapacity 1
  unfold placesLeft
  by_cases hwrap : hand % cfg.extentCapacity + 1 = cfg.extentCapacity
  · rw [hwrap, Nat.mod_self] at hsucc
    rw [← hsucc] at hmore ⊢
    split <;> split <;> omega
  · rw [Nat.mod_eq_of_lt (by omega)] at hsucc
    rw [← hsucc] at hmore ⊢
    split <;> split <;> omega

variable (cfg) in
/-- A bound for the accesses a thread inside an allocation has still to make. -/
def AllocPc.rank (n : Nat) (al : RcAllocator) : AllocPc → Nat
  | .scan _ firstHand => 3 * placesLeft cfg al.hand firstHand + (2 * (cfg.extentCapacity + n) + 3)
  | .look _ firstHand hand =>
      (if (hand + 1) % cfg.extentCapacity = firstHand then 0
        else 3 * placesLeft cfg al.hand firstHand) + (2 * (cfg.extentCapacity + n) + 3) + 2
  | .claim _ firstHand hand =>
      (if (hand + 1) % cfg.extentCapacity = firstHand then 0
        else 3 * placesLeft cfg al.hand firstHand) + (2 * (cfg.extentCapacity + n) + 3) + 1
  | .count _ _ => 2 * (cfg.extentCapacity + n) + 3
  | .readMax _ _ curr => 2 * (curr - al.maxAllocated).toNat + 2
  | .raiseMax _ _ curr max => 2 * (curr - max).toNat + 1
  | .countType _ _ => 1
  | _ => 0

theorem rank_le {al : RcAllocator} {pc : AllocPc} (hmax : 0 ≤ al.maxAllocated)
    (hpc : PcOk cfg n al pc) : pc.rank cfg n al ≤ maxAccesses cfg n := by
  unfold maxAccesses
  cases pc with
  | scan type firstHand =>
      have hleft := placesLeft_le al.hand hpc
      simp only [AllocPc.rank]
      omega
  | look type firstHand hand =>
      have hleft := placesLeft_le al.hand hpc.1
      simp only [AllocPc.rank]
      split <;> omega
  | claim type firstHand hand =>
      have hleft := placesLeft_le al.hand hpc.1
      simp only [AllocPc.rank]
      split <;> omega
  | readMax type hand curr =>
      have hcurr := hpc.2
      simp only [AllocPc.rank]
      omega
  | raiseMax type hand curr max =>
      obtain ⟨-, hcurr, hnonneg, -⟩ := hpc
      simp only [AllocPc.rank]
      omega
  | _ =>
      simp only [AllocPc.rank]
      omega

theorem rank_afterMiss (al : RcAllocator) (type : PageType) (firstHand hand : Nat) :
    (afterMiss cfg type firstHand hand).rank cfg n al =
      if (hand + 1) % cfg.extentCapacity = firstHand then 0
      else 3 * placesLeft cfg al.hand firstHand + (2 * (cfg.extentCapacity + n) + 3) := by
  unfold afterMiss
  by_cases hlast : (hand + 1) % cfg.extentCapacity = firstHand
  · rw [if_neg (not_not.mpr hlast), if_pos hlast]
    rfl
  · rw [if_pos hlast, if_neg hlast]
    rfl

theorem rank_own {al al' : RcAllocator} {pc pc' : AllocPc} (hmax : 0 ≤ al.maxAllocated)
    (hpc : PcOk cfg n al pc) (hpc' : PcOk cfg n al' pc') (hin : pc.inAlloc = true)
    (hwrap : ∀ type firstHand, pc = .scan type firstHand → al.hand + 1 < handMod)
    (h : Access cfg al pc .next al' pc') : pc'.rank cfg n al' < pc.rank cfg n al := by
  cases h with
  | scan type firstHand =>
      have hnext : (al.hand + 1) % handMod = al.hand + 1 := Nat.mod_eq_of_lt (hwrap type firstHand rfl)
      have hpos : 0 < placesLeft cfg al.hand firstHand := placesLeft_pos al.hand firstHand
      simp only [AllocPc.rank, hnext, Nat.mod_add_mod]
      by_cases hlast : (al.hand + 1) % cfg.extentCapacity = firstHand
      · rw [if_pos hlast]
        omega
      · have hleft := placesLeft_succ hpc hlast
        rw [if_neg hlast]
        omega
  | looksFree type firstHand hand hfree =>
      simp only [AllocPc.rank]
      omega
  | lookMiss type firstHand hand hused =>
      rw [rank_afterMiss]
      simp only [AllocPc.rank]
      split <;> omega
  | take type firstHand hand hfree =>
      simp only [AllocPc.rank]
      omega
  | claimMiss type firstHand hand hused =>
      rw [rank_afterMiss]
      simp only [AllocPc.rank]
      split <;> omega
  | count type hand =>
      have hcurr := hpc'.2
      simp only [AllocPc.rank]
      omega
  | belowMax type hand curr hbelow =>
      simp only [AllocPc.rank]
      omega
  | aboveMax type hand curr habove =>
      simp only [AllocPc.rank]
      omega
  | raised type hand curr max hsame =>
      have hlt := hpc.2.2.2.2
      simp only [AllocPc.rank]
      omega
  | notRaised type hand curr max hsame =>
      obtain ⟨-, -, -, hseen, hlt⟩ := hpc
      simp only [AllocPc.rank]
      omega
  | countType type hand allocs =>
      simp only [AllocPc.rank]
      omega
  | uncount type => cases hin
  | uncountType type => cases hin

theorem access_hand {al al' : RcAllocator} {pc pc' : AllocPc} {act : AllocAct}
    (h : Access cfg al pc act al' pc') :
    al'.hand = al.hand ∨ ∃ type firstHand, pc = .scan type firstHand ∧ act = .next ∧
      al'.hand = (al.hand + 1) % handMod ∧ pc' = .look type firstHand (al.hand % cfg.extentCapacity) := by
  cases h with
  | scan type firstHand => exact Or.inr ⟨type, firstHand, rfl, rfl, rfl, rfl⟩
  | _ => exact Or.inl rfl

theorem rank_other {al al' : RcAllocator} {pc : AllocPc} (hpc : PcOk cfg n al pc)
    (hmax : al.maxAllocated ≤ al'.maxAllocated)
    (hhand : al'.hand = al.hand ∨ al'.hand = al.hand + 1 ∧ ¬ pc.Awaits cfg al.hand) :
    pc.rank cfg n al' ≤ pc.rank cfg n al := by
  have hleft : ∀ firstHand, firstHand < cfg.extentCapacity →
      (al'.hand = al.hand + 1 → (al.hand + 1) % cfg.extentCapacity ≠ firstHand) →
      placesLeft cfg al'.hand firstHand ≤ placesLeft cfg al.hand firstHand := by
    intro firstHand hfirst hmore
    rcases hhand with hsame | ⟨hnext, -⟩
    · rw [hsame]
    · have hsucc := placesLeft_succ hfirst (hmore hnext)
      rw [hnext]
      omega
  have hgiven : ∀ firstHand hand, firstHand < cfg.extentCapacity →
      (al'.hand = al.hand + 1 → ¬ ((hand + 1) % cfg.extentCapacity ≠ firstHand ∧
        (al.hand + 1) % cfg.extentCapacity = firstHand)) →
      (if (hand + 1) % cfg.extentCapacity = firstHand then 0
        else 3 * placesLeft cfg al'.hand firstHand) ≤
      if (hand + 1) % cfg.extentCapacity = firstHand then 0
        else 3 * placesLeft cfg al.hand firstHand := by
    intro firstHand hand hfirst hmore
    by_cases hlast : (hand + 1) % cfg.extentCapacity = firstHand
    · rw [if_pos hlast]
      exact Nat.zero_le _
    · have hle := hleft firstHand hfirst fun hnext hawaits => hmore hnext ⟨hlast, hawaits⟩
      rw [if_neg hlast, if_neg hlast]
      omega
  have hawaits : al'.hand = al.hand + 1 → ¬ pc.Awaits cfg al.hand := by
    intro hnext
    rcases hhand with hsame | ⟨-, hnot⟩
    · omega
    · exact hnot
  cases pc with
  | scan type firstHand =>
      have hle := hleft firstHand hpc hawaits
      simp only [AllocPc.rank]
      omega
  | look type firstHand hand =>
      have hle := hgiven firstHand hand hpc.1 hawaits
      simp only [AllocPc.rank]
      omega
  | claim type firstHand hand =>
      have hle := hgiven firstHand hand hpc.1 hawaits
      simp only [AllocPc.rank]
      omega
  | readMax type hand curr =>
      simp only [AllocPc.rank]
      omega
  | _ => exact le_refl _

theorem rank_step {s s' : RcState n} {a : Fin n × AllocAct} {t : Fin n} (hinv : RcInv cfg s)
    (hguard : FairHand cfg s a) (hin : (s.pc t).inAlloc = true) (h : rcNext cfg s a = some s') :
    (s'.pc t).rank cfg n s'.al + (if a.1 = t then 1 else 0) ≤ (s.pc t).rank cfg n s.al := by
  obtain ⟨u, act⟩ := a
  have hinv' := rcInv_step hinv h
  obtain ⟨haccess, hothers⟩ := access_of_rcNext hinv.refCount_lt h
  by_cases hu : u = t
  · subst hu
    have hact : act = .next := by
      generalize s.pc u = pc, s'.al = al', s'.pc u = pc' at haccess hin
      cases haccess <;> first | rfl | cases hin
    subst hact
    have hlt := rank_own hinv.max_nonneg (hinv.pc_ok u) (hinv'.pc_ok u) hin
      (fun type firstHand hpc => (hguard.scan hpc rfl).1) haccess
    rw [if_pos rfl]
    exact hlt
  · rw [if_neg hu, hothers t (Ne.symm hu), Nat.add_zero]
    refine rank_other (hinv.pc_ok t) (access_max (hinv.pc_ok u) haccess) ?_
    rcases access_hand haccess with hsame | ⟨type, firstHand, hpc, hact, hhand, -⟩
    · exact Or.inl hsame
    · obtain ⟨hwrap, hawaits⟩ := hguard.scan hpc hact
      rw [Nat.mod_eq_of_lt hwrap] at hhand
      exact Or.inr ⟨hhand, hawaits t (Ne.symm hu)⟩

/-- **Every run.**  As long as a thread is inside an allocation its accesses use up its rank. -/
theorem accesses_le_rank {s s' : RcState n} {tr : List (RcStep n)} {t : Fin n}
    (hrun : (rcSystem cfg n).Run s tr s') (hinv : RcInv cfg s) (hguard : Guarded (FairHand cfg) tr)
    (hin : ∀ p ∈ tr, (p.1.pc t).inAlloc = true) :
    RcInv cfg s' ∧ accesses t tr + (s'.pc t).rank cfg n s'.al ≤ (s.pc t).rank cfg n s.al := by
  induction hrun with
  | nil => exact ⟨hinv, by simp [accesses]⟩
  | @snoc s₁ s₂ tr a hprev hlast ih =>
      obtain ⟨hbefore, hnow⟩ := guarded_snoc.mp hguard
      obtain ⟨hinv₁, hle⟩ := ih hbefore fun p hp => hin p (List.mem_append_left _ hp)
      have hin₁ : (s₁.pc t).inAlloc = true := hin (s₁, a) (List.mem_append_right _ (List.mem_singleton_self _))
      have hstep := rank_step hinv₁ hnow hin₁ hlast
      refine ⟨rcInv_step hinv₁ hlast, ?_⟩
      have hcount : accesses t (tr ++ [(s₁, a)]) = accesses t tr + (if a.1 = t then 1 else 0) := by
        simp [accesses, List.countP_append, List.countP_singleton]
      omega

/-! ## What a scan has seen -/

/-- Extent `e` has been in use in a state of the run so far. -/
def SeenUsed (tr : List (RcStep n)) (s : RcState n) (e : Nat) : Prop :=
  (∃ f ∈ tr, f.1.al.refCount e ≠ 0) ∨ s.al.refCount e ≠ 0

theorem SeenUsed.snoc {tr : List (RcStep n)} {s s' : RcState n} {a : Fin n × AllocAct} {e : Nat}
    (h : SeenUsed tr s e) : SeenUsed (tr ++ [(s, a)]) s' e := by
  rcases h with ⟨f, hf, hused⟩ | hused
  · exact Or.inl ⟨f, List.mem_append_left _ hf, hused⟩
  · exact Or.inl ⟨(s, a), List.mem_append_right _ (List.mem_singleton_self _), hused⟩

variable (cfg) in
/-- The thread is in the scan that found the hand at `start`, or in none. -/
def InScan (start hand : Nat) : AllocPc → Prop
  | .scan _ firstHand => firstHand = start % cfg.extentCapacity
  | .look _ firstHand given | .claim _ firstHand given => firstHand = start % cfg.extentCapacity ∧
      ∃ k, start ≤ k ∧ k < hand ∧ given = k % cfg.extentCapacity
  | _ => True

variable (cfg) in
/-- What holds from the start of a scan of thread `t`: every place the hand has passed since has
been seen in use, or the thread it was given to has still to test it. -/
structure ScanInv (t : Fin n) (start : Nat) (tr : List (RcStep n)) (s : RcState n) : Prop where
  start_le : start ≤ s.al.hand
  inScan : InScan cfg start s.al.hand (s.pc t)
  covered : ∀ k, start ≤ k → k < s.al.hand → SeenUsed tr s (k % cfg.extentCapacity) ∨
    ∃ r, (s.pc r).given = some (k % cfg.extentCapacity)

theorem inScan_afterMiss {start hand given firstHand : Nat} {type : PageType}
    (hfirst : firstHand = start % cfg.extentCapacity) :
    InScan cfg start hand (afterMiss cfg type firstHand given) := by
  unfold afterMiss
  split
  · exact hfirst
  · trivial

theorem InScan.mono {start hand hand' : Nat} {pc : AllocPc} (h : InScan cfg start hand pc)
    (hle : hand ≤ hand') : InScan cfg start hand' pc := by
  cases pc with
  | look type firstHand given =>
      obtain ⟨hfirst, k, hstart, hk, hgiven⟩ := h
      exact ⟨hfirst, k, hstart, by omega, hgiven⟩
  | claim type firstHand given =>
      obtain ⟨hfirst, k, hstart, hk, hgiven⟩ := h
      exact ⟨hfirst, k, hstart, by omega, hgiven⟩
  | _ => exact h

theorem inScan_own {al al' : RcAllocator} {pc pc' : AllocPc} {act : AllocAct} {start : Nat}
    (h : InScan cfg start al.hand pc) (hstart : start ≤ al.hand) (hcall : ∀ type, act ≠ .alloc type)
    (hwrap : ∀ type firstHand, pc = .scan type firstHand → act = .next → al.hand + 1 < handMod)
    (haccess : Access cfg al pc act al' pc') : InScan cfg start al'.hand pc' := by
  cases haccess with
  | start last type => exact absurd rfl (hcall type)
  | scan type firstHand =>
      have hnext : (al.hand + 1) % handMod = al.hand + 1 :=
        Nat.mod_eq_of_lt (hwrap type firstHand rfl rfl)
      refine ⟨h, al.hand, hstart, ?_, rfl⟩
      rw [hnext]
      exact Nat.lt_succ_self _
  | looksFree type firstHand hand hfree => exact h
  | lookMiss type firstHand hand hused => exact inScan_afterMiss h.1
  | claimMiss type firstHand hand hused => exact inScan_afterMiss h.1
  | _ => trivial

theorem given_access {al al' : RcAllocator} {pc pc' : AllocPc} {act : AllocAct} {e : Nat}
    (hgiven : pc.given = some e) (h : Access cfg al pc act al' pc') :
    pc'.given = some e ∨ al.refCount e ≠ 0 ∨ al'.refCount e ≠ 0 := by
  cases h with
  | looksFree type firstHand hand hfree => exact Or.inl hgiven
  | lookMiss type firstHand hand hused =>
      obtain rfl : hand = e := Option.some.inj hgiven
      exact Or.inr (Or.inl hused)
  | take type firstHand hand hfree =>
      obtain rfl : hand = e := Option.some.inj hgiven
      exact Or.inr (Or.inr (by simp))
  | claimMiss type firstHand hand hused =>
      obtain rfl : hand = e := Option.some.inj hgiven
      exact Or.inr (Or.inl hused)
  | _ => cases hgiven

theorem scanInv_step {s s' : RcState n} {tr : List (RcStep n)} {a : Fin n × AllocAct} {t : Fin n}
    {start : Nat} (hinv : RcInv cfg s) (hscan : ScanInv cfg t start tr s) (hguard : FairHand cfg s a)
    (hcall : ¬ RcStep.Starts (s, a) t) (h : rcNext cfg s a = some s') :
    ScanInv cfg t start (tr ++ [(s, a)]) s' := by
  obtain ⟨u, act⟩ := a
  obtain ⟨haccess, hothers⟩ := access_of_rcNext hinv.refCount_lt h
  have hhand : s'.al.hand = s.al.hand ∨
      s'.al.hand = s.al.hand + 1 ∧ (s'.pc u).given = some (s.al.hand % cfg.extentCapacity) := by
    rcases access_hand haccess with hsame | ⟨type, firstHand, hpc, hact, hhand, hpc'⟩
    · exact Or.inl hsame
    · rw [Nat.mod_eq_of_lt (hguard.scan hpc hact).1] at hhand
      exact Or.inr ⟨hhand, by rw [hpc']; rfl⟩
  have hmono : s.al.hand ≤ s'.al.hand := by rcases hhand with h | h <;> omega
  refine ⟨le_trans hscan.start_le hmono, ?_, ?_⟩
  · by_cases hu : u = t
    · subst hu
      exact inScan_own hscan.inScan hscan.start_le (fun type hact => hcall ⟨type, by rw [hact]⟩)
        (fun type firstHand hpc hact => (hguard.scan hpc hact).1) haccess
    · rw [hothers t (Ne.symm hu)]
      exact hscan.inScan.mono hmono
  · intro k hstart hk
    by_cases hold : k < s.al.hand
    · rcases hscan.covered k hstart hold with hseen | ⟨r, hgiven⟩
      · exact Or.inl hseen.snoc
      · by_cases hr : r = u
        · subst hr
          rcases given_access hgiven haccess with hstill | hused | hused
          · exact Or.inr ⟨r, hstill⟩
          · have hnow : SeenUsed tr s (k % cfg.extentCapacity) := Or.inr hused
            exact Or.inl hnow.snoc
          · exact Or.inl (Or.inr hused)
        · exact Or.inr ⟨r, by rw [hothers r hr]; exact hgiven⟩
    · -- The place the step has given.
      rcases hhand with hsame | ⟨hnext, hgiven⟩
      · omega
      · obtain rfl : k = s.al.hand := by omega
        exact Or.inr ⟨u, hgiven⟩

theorem scanInv_run {s s' : RcState n} {tr : List (RcStep n)} {t : Fin n} {type : PageType}
    (hrun : (rcSystem cfg n).Run s tr s') (hinv : RcInv cfg s)
    (hstart : s.pc t = .scan type (s.al.hand % cfg.extentCapacity)) (hguard : Guarded (FairHand cfg) tr)
    (hcall : ∀ f ∈ tr, ¬ f.Starts t) : RcInv cfg s' ∧ ScanInv cfg t s.al.hand tr s' := by
  induction hrun with
  | nil =>
      refine ⟨hinv, le_refl _, ?_, fun k hstart hk => absurd hk (Nat.not_lt.mpr hstart)⟩
      rw [hstart]
      rfl
  | @snoc s₁ s₂ tr a hprev hlast ih =>
      obtain ⟨hbefore, hnow⟩ := guarded_snoc.mp hguard
      obtain ⟨hinv₁, hscan⟩ := ih hbefore fun f hf => hcall f (List.mem_append_left _ hf)
      have hnocall := hcall (s₁, a) (List.mem_append_right _ (List.mem_singleton_self _))
      exact ⟨rcInv_step hinv₁ hlast, scanInv_step hinv₁ hscan hnow hnocall hlast⟩

theorem returns_noSpace {q : RcStep n} {t : Fin n} (hinv : RcInv cfg q.1)
    (h : q.Returns cfg t .noSpace) : ∃ type firstHand hand,
      (q.1.pc t = .look type firstHand hand ∨ q.1.pc t = .claim type firstHand hand) ∧
        q.1.al.refCount hand ≠ 0 ∧ (hand + 1) % cfg.extentCapacity = firstHand := by
  obtain ⟨hact, -, s', hstep, hpc'⟩ := h
  have hmiss : ∀ type firstHand hand, afterMiss cfg type firstHand hand = .idle (some .noSpace) →
      (hand + 1) % cfg.extentCapacity = firstHand := by
    intro type firstHand hand hidle
    by_contra hmore
    rw [afterMiss, if_pos hmore] at hidle
    cases hidle
  rw [hact] at hstep
  have haccess := (access_of_rcNext hinv.refCount_lt hstep).1
  generalize q.1.pc t = pc, s'.al = al', s'.pc t = pc' at haccess hpc'
  cases haccess with
  | lookMiss type firstHand hand hused =>
      exact ⟨type, firstHand, hand, Or.inl rfl, hused, hmiss type firstHand hand hpc'⟩
  | claimMiss type firstHand hand hused =>
      exact ⟨type, firstHand, hand, Or.inr rfl, hused, hmiss type firstHand hand hpc'⟩
  | _ => cases hpc'

theorem exists_place (start : Nat) {e : Nat} (he : e < cfg.extentCapacity) :
    ∃ k, start ≤ k ∧ k < start + cfg.extentCapacity ∧ k % cfg.extentCapacity = e := by
  have hmod := Nat.mod_lt start cfg.extentCapacity_pos
  have hlt := Nat.mod_lt (e + (cfg.extentCapacity - start % cfg.extentCapacity)) cfg.extentCapacity_pos
  refine ⟨start + (e + (cfg.extentCapacity - start % cfg.extentCapacity)) % cfg.extentCapacity,
    Nat.le_add_right _ _, by omega, ?_⟩
  have hround : start % cfg.extentCapacity + (e + (cfg.extentCapacity - start % cfg.extentCapacity)) =
      e + cfg.extentCapacity := by omega
  rw [Nat.add_mod_mod, ← Nat.mod_add_mod, hround, Nat.add_mod_right, Nat.mod_eq_of_lt he]

theorem round_le {start k : Nat} (hle : start ≤ k)
    (hlast : (k % cfg.extentCapacity + 1) % cfg.extentCapacity = start % cfg.extentCapacity) :
    start + cfg.extentCapacity ≤ k + 1 := by
  rw [Nat.mod_add_mod] at hlast
  have hdvd : cfg.extentCapacity ∣ k + 1 - start :=
    (Nat.modEq_iff_dvd' (by omega)).mp hlast.symm
  have hround := Nat.le_of_dvd (by omega) hdvd
  omega

theorem noSpace_seen {s s' : RcState n} {p q : RcStep n} {ys zs : List (RcStep n)} {t : Fin n}
    (hinv : RcInv cfg s) (hrun : (rcSystem cfg n).Run s (p :: (ys ++ q :: zs)) s')
    (hguard : Guarded (FairHand cfg) (p :: (ys ++ q :: zs))) (hp : p.Starts t)
    (hcall : ∀ f ∈ ys, ¬ f.Starts t) (hq : q.Returns cfg t .noSpace) {e : Nat}
    (he : e < cfg.extentCapacity) : ∃ f ∈ ys ++ [q], f.1.al.refCount e ≠ 0 := by
  obtain ⟨rfl, s₁, hstep, hrest⟩ := run_cons_iff.mp hrun
  obtain ⟨m, hys, htail⟩ := run_append.mp hrest
  obtain ⟨rfl, -⟩ := run_cons_iff.mp htail
  obtain ⟨-, hguard⟩ := guarded_cons.mp hguard
  obtain ⟨hguardYs, hguardQ⟩ := guarded_append.mp hguard
  obtain ⟨type, hact⟩ := hp
  rw [hact] at hstep
  have hscanning : s₁.pc t = .scan type (s₁.al.hand % cfg.extentCapacity) := by
    have haccess := (access_of_rcNext hinv.refCount_lt hstep).1
    generalize p.1.pc t = pc, s₁.al = al', s₁.pc t = pc' at haccess
    cases haccess
    rfl
  obtain ⟨hinvQ, hscan⟩ := scanInv_run hys (rcInv_step hinv hstep) hscanning hguardYs hcall
  obtain ⟨type', firstHand, hand, hpcQ, hused, hlast⟩ := returns_noSpace hinvQ hq
  have hothers : OthersGivenUsed q.1 t := by
    have hfair := (guarded_cons.mp hguardQ).1
    rw [hq.1] at hfair
    rcases hpcQ with hpcQ | hpcQ
    · simp only [FairHand, hpcQ] at hfair
      exact hfair hused hlast
    · simp only [FairHand, hpcQ] at hfair
      exact hfair hused hlast
  have hround : s₁.al.hand + cfg.extentCapacity ≤ q.1.al.hand := by
    have hinScan := hscan.inScan
    obtain ⟨hfirst, k, hstart, hk, hgiven⟩ : firstHand = s₁.al.hand % cfg.extentCapacity ∧
        ∃ k, s₁.al.hand ≤ k ∧ k < q.1.al.hand ∧ hand = k % cfg.extentCapacity := by
      rcases hpcQ with hpcQ | hpcQ
      · rw [hpcQ] at hinScan
        exact hinScan
      · rw [hpcQ] at hinScan
        exact hinScan
    rw [hgiven, hfirst] at hlast
    have hle := round_le hstart hlast
    omega
  obtain ⟨k, hstart, hk, hplace⟩ := exists_place s₁.al.hand he
  have hcovered := hscan.covered k hstart (by omega)
  rw [hplace] at hcovered
  have hseen : SeenUsed ys q.1 e := by
    rcases hcovered with hseen | ⟨r, hgiven⟩
    · exact hseen
    · by_cases hr : r = t
      · subst hr
        have hown : hand = e := by
          rcases hpcQ with hpcQ | hpcQ
          · rw [hpcQ] at hgiven
            exact Option.some.inj hgiven
          · rw [hpcQ] at hgiven
            exact Option.some.inj hgiven
        exact Or.inr (hown ▸ hused)
      · exact Or.inr (hothers r hr e hgiven)
  rcases hseen with ⟨f, hf, hfused⟩ | hfused
  · exact ⟨f, List.mem_append_left _ hf, hfused⟩
  · exact ⟨q, List.mem_append_right _ (List.mem_singleton_self _), hfused⟩

end Alloc
end TreePass
