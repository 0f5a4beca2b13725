import TreePass.Lib.Tally
import TreePass.Alloc.RcAllocator
import Mathlib.Algebra.Order.Group.Int
import Mathlib.Tactic.Linarith

/-!
# What the extent allocator counts

`curr_allocated` runs behind the reference counts: an allocation counts its extent after it has
taken it, and `rc_allocator_dec_ref` counts an extent out after its reference count has become 0.
`RcInv` says that the threads in between account for the difference.

* `access_counted`: one access changes both sides by the same amount.
* `rcInv_step`, `rcInv_of_reachable`: the invariant holds in every state of every run.
* `currAllocated_eq_inUse`: when no operation is in progress the count is exact.
-/

namespace TreePass
namespace Alloc

open Lib Lib.System
open TreePass.Cache (PageType)

variable {cfg : AllocatorConfig} {n : Nat}

/-! ## The number of extents in use -/

theorem inUse_setRef (al : RcAllocator) {e : Nat} (count : Nat) (he : e < cfg.extentCapacity) :
    (al.setRef e count).inUse cfg + (if al.refCount e ≠ 0 then 1 else 0) =
      al.inUse cfg + (if count ≠ 0 then 1 else 0) := by
  have hmem : e ∈ Finset.range cfg.extentCapacity := Finset.mem_range.mpr he
  have hrest : ∑ i ∈ (Finset.range cfg.extentCapacity).erase e,
      (if Function.update al.refCount e count i ≠ 0 then 1 else 0) =
      ∑ i ∈ (Finset.range cfg.extentCapacity).erase e, (if al.refCount i ≠ 0 then 1 else 0) := by
    refine Finset.sum_congr rfl fun i hi => ?_
    rw [Function.update_of_ne (Finset.ne_of_mem_erase hi)]
  have hold := Finset.add_sum_erase (Finset.range cfg.extentCapacity)
    (fun i => if al.refCount i ≠ 0 then 1 else 0) hmem
  have hnew := Finset.add_sum_erase (Finset.range cfg.extentCapacity)
    (fun i => if Function.update al.refCount e count i ≠ 0 then 1 else 0) hmem
  simp only [Function.update_self] at hnew
  rw [hrest] at hnew
  simp only [RcAllocator.inUse, Finset.card_filter]
  change (∑ i ∈ Finset.range cfg.extentCapacity,
    (if Function.update al.refCount e count i ≠ 0 then 1 else 0)) + _ = _
  omega

theorem inUse_le (al : RcAllocator) : al.inUse cfg ≤ cfg.extentCapacity := by
  have h := Finset.card_filter_le (Finset.range cfg.extentCapacity) fun e => al.refCount e ≠ 0
  rwa [Finset.card_range] at h

/-! ## The invariant -/

def AllocPc.uncounted : AllocPc → Nat
  | .count _ _ => 1
  | _ => 0

def AllocPc.overcounted : AllocPc → Nat
  | .uncount _ => 1
  | _ => 0

def PcOk (cfg : AllocatorConfig) (n : Nat) (al : RcAllocator) : AllocPc → Prop
  | .scan _ firstHand => firstHand < cfg.extentCapacity
  | .look _ firstHand hand => firstHand < cfg.extentCapacity ∧ hand < cfg.extentCapacity
  | .claim _ firstHand hand => firstHand < cfg.extentCapacity ∧ hand < cfg.extentCapacity
  | .count _ hand => hand < cfg.extentCapacity
  | .readMax _ hand curr => hand < cfg.extentCapacity ∧ curr ≤ cfg.extentCapacity + n
  | .raiseMax _ hand curr max => hand < cfg.extentCapacity ∧ curr ≤ cfg.extentCapacity + n ∧
      0 ≤ max ∧ max ≤ al.maxAllocated ∧ max < curr
  | .countType _ hand => hand < cfg.extentCapacity
  | _ => True

/-- The invariant of the allocator. -/
structure RcInv (cfg : AllocatorConfig) (s : RcState n) : Prop where
  refCount_lt : ∀ e, s.al.refCount e < refcountMod
  max_nonneg : 0 ≤ s.al.maxAllocated
  pc_ok : ∀ t, PcOk cfg n s.al (s.pc t)
  counted : s.al.currAllocated + ((∑ t, (s.pc t).uncounted : Nat) : Int) =
    s.al.inUse cfg + ((∑ t, (s.pc t).overcounted : Nat) : Int)

theorem rcInv_init {s : RcState n} (h : Mounted cfg s) : RcInv cfg s where
  refCount_lt := h.refCount_lt
  max_nonneg := h.maxAllocated_zero.ge
  pc_ok t := by
    rw [h.idle t]
    trivial
  counted := by
    have huncounted : ∑ t, (s.pc t).uncounted = 0 :=
      Finset.sum_eq_zero fun t _ => by rw [h.idle t]; rfl
    have hovercounted : ∑ t, (s.pc t).overcounted = 0 :=
      Finset.sum_eq_zero fun t _ => by rw [h.idle t]; rfl
    rw [huncounted, hovercounted, h.currAllocated_eq]

theorem RcInv.currAllocated_le {s : RcState n} (h : RcInv cfg s) :
    s.al.currAllocated + (∑ t, (s.pc t).uncounted : Nat) ≤ cfg.extentCapacity + n := by
  have hused : s.al.inUse cfg ≤ cfg.extentCapacity := inUse_le s.al
  have hover : ∑ t, (s.pc t).overcounted ≤ n := by
    have hle := Finset.sum_le_card_nsmul Finset.univ (fun t => (s.pc t).overcounted) 1 fun t _ => by
      cases s.pc t <;> simp [AllocPc.overcounted]
    simpa using hle
  have hcounted := h.counted
  omega

theorem afterMiss_uncounted (type : PageType) (firstHand hand : Nat) :
    (afterMiss cfg type firstHand hand).uncounted = 0 := by
  unfold afterMiss
  split <;> rfl

theorem afterMiss_overcounted (type : PageType) (firstHand hand : Nat) :
    (afterMiss cfg type firstHand hand).overcounted = 0 := by
  unfold afterMiss
  split <;> rfl

theorem pcOk_afterMiss {al : RcAllocator} {type : PageType} {firstHand hand : Nat}
    (hfirst : firstHand < cfg.extentCapacity) : PcOk cfg n al (afterMiss cfg type firstHand hand) := by
  unfold afterMiss
  split
  · exact hfirst
  · trivial

/-! ## One access -/

section OneAccess

variable {al al' : RcAllocator} {pc pc' : AllocPc} {act : AllocAct}

theorem access_counted (hpc : PcOk cfg n al pc) (h : Access cfg al pc act al' pc') :
    al'.currAllocated + pc'.uncounted + al.inUse cfg + pc.overcounted =
      al.currAllocated + pc.uncounted + al'.inUse cfg + pc'.overcounted := by
  cases h with
  | start last type => rfl
  | incRef last addr hextent hlive hroom =>
      have hused := inUse_setRef al (al.refCount (addr / cfg.extentSize) + 1) hextent
      rw [if_pos hlive, if_pos (Nat.succ_ne_zero _)] at hused
      simp only [RcAllocator.setRef, AllocPc.uncounted, AllocPc.overcounted] at hused ⊢
      omega
  | decRef last addr type hextent hlive =>
      have hused := inUse_setRef al (al.refCount (addr / cfg.extentSize) - 1) hextent
      rw [if_pos (by omega), if_pos (by omega)] at hused
      simp only [RcAllocator.setRef, AllocPc.uncounted, AllocPc.overcounted] at hused ⊢
      omega
  | free last addr type hextent hlast =>
      have hused := inUse_setRef al 0 hextent
      rw [if_pos (by omega), if_neg (by simp)] at hused
      simp only [RcAllocator.setRef, AllocPc.uncounted, AllocPc.overcounted] at hused ⊢
      omega
  | take type firstHand hand hfree =>
      have hused := inUse_setRef al 2 hpc.2
      rw [if_neg (by simp [hfree]), if_pos (by decide)] at hused
      simp only [RcAllocator.setRef, AllocPc.uncounted, AllocPc.overcounted] at hused ⊢
      omega
  | lookMiss type firstHand hand hused =>
      rw [afterMiss_uncounted, afterMiss_overcounted]
      rfl
  | claimMiss type firstHand hand hused =>
      rw [afterMiss_uncounted, afterMiss_overcounted]
      rfl
  | count type hand =>
      simp only [AllocPc.uncounted, AllocPc.overcounted, RcAllocator.inUse]
      omega
  | uncount type =>
      simp only [AllocPc.uncounted, AllocPc.overcounted, RcAllocator.inUse]
      omega
  | _ => rfl

theorem access_refCount_lt (hbound : ∀ e, al.refCount e < refcountMod)
    (h : Access cfg al pc act al' pc') (e : Nat) : al'.refCount e < refcountMod := by
  have hset : ∀ e' count, count < refcountMod → (al.setRef e' count).refCount e < refcountMod := by
    intro e' count hcount
    by_cases he : e = e'
    · subst he
      rw [RcAllocator.setRef_self]
      exact hcount
    · rw [RcAllocator.setRef_of_ne al count he]
      exact hbound e
  cases h with
  | incRef last addr hextent hlive hroom => exact hset _ _ hroom
  | decRef last addr type hextent hlive =>
      exact hset _ _ (Nat.lt_of_le_of_lt (Nat.sub_le _ _) (hbound _))
  | free last addr type hextent hlast => exact hset _ _ (by decide)
  | take type firstHand hand hfree => exact hset _ _ (by decide)
  | _ => exact hbound e

theorem access_max (hpc : PcOk cfg n al pc) (h : Access cfg al pc act al' pc') :
    al.maxAllocated ≤ al'.maxAllocated := by
  cases h with
  | raised type hand curr max hmax =>
      have hlt := hpc.2.2.2.2
      change al.maxAllocated ≤ curr
      omega
  | _ => exact le_refl _

theorem PcOk.mono (hpc : PcOk cfg n al pc) (hmax : al.maxAllocated ≤ al'.maxAllocated) :
    PcOk cfg n al' pc := by
  cases pc with
  | raiseMax type hand curr max =>
      obtain ⟨hhand, hcurr, hnonneg, hseen, hlt⟩ := hpc
      exact ⟨hhand, hcurr, hnonneg, le_trans hseen hmax, hlt⟩
  | _ => exact hpc

theorem access_pcOk (hpc : PcOk cfg n al pc) (hmark : 0 ≤ al.maxAllocated)
    (hcurr : al.currAllocated + pc.uncounted ≤ cfg.extentCapacity + n)
    (h : Access cfg al pc act al' pc') : PcOk cfg n al' pc' := by
  have hmod : ∀ k, k % cfg.extentCapacity < cfg.extentCapacity :=
    fun k => Nat.mod_lt k cfg.extentCapacity_pos
  cases h with
  | start last type => exact hmod _
  | scan type firstHand => exact ⟨hpc, hmod _⟩
  | looksFree type firstHand hand hfree => exact hpc
  | lookMiss type firstHand hand hused => exact pcOk_afterMiss hpc.1
  | take type firstHand hand hfree => exact hpc.2
  | claimMiss type firstHand hand hused => exact pcOk_afterMiss hpc.1
  | count type hand => exact ⟨hpc, by simpa [AllocPc.uncounted] using hcurr⟩
  | belowMax type hand curr hmax => exact hpc.1
  | aboveMax type hand curr hmax => exact ⟨hpc.1, hpc.2, hmark, le_refl _, hmax⟩
  | raised type hand curr max hmax => exact ⟨hpc.1, hpc.2.1⟩
  | notRaised type hand curr max hmax => exact ⟨hpc.1, hpc.2.1⟩
  | _ => trivial

end OneAccess

/-! ## Every run -/

theorem rcInv_step {s s' : RcState n} {a : Fin n × AllocAct} (hinv : RcInv cfg s)
    (h : rcNext cfg s a = some s') : RcInv cfg s' := by
  obtain ⟨t, act⟩ := a
  obtain ⟨haccess, hothers⟩ := access_of_rcNext hinv.refCount_lt h
  have hupdate : s'.pc = Function.update s.pc t (s'.pc t) := by
    funext r
    by_cases hr : r = t
    · subst hr
      rw [Function.update_self]
    · rw [Function.update_of_ne hr, hothers r hr]
  have hmax := access_max (hinv.pc_ok t) haccess
  refine ⟨access_refCount_lt hinv.refCount_lt haccess, le_trans hinv.max_nonneg hmax, ?_, ?_⟩
  · intro r
    by_cases hr : r = t
    · subst hr
      have hone := le_tally (fun _ pc => AllocPc.uncounted pc) s.pc r
      have hall := hinv.currAllocated_le
      exact access_pcOk (hinv.pc_ok r) hinv.max_nonneg (by omega) haccess
    · rw [hothers r hr]
      exact (hinv.pc_ok r).mono hmax
  · have hbalance := access_counted (hinv.pc_ok t) haccess
    have huncounted := tally_update (fun _ pc => AllocPc.uncounted pc) s.pc t (s'.pc t)
    have hovercounted := tally_update (fun _ pc => AllocPc.overcounted pc) s.pc t (s'.pc t)
    have hcounted := hinv.counted
    rw [← hupdate] at huncounted hovercounted
    omega

theorem rcInv_of_reachable {s : RcState n} (h : (rcSystem cfg n).Reachable s) : RcInv cfg s :=
  h.invariant (fun _ => rcInv_init) fun _ _ _ hinv hstep => rcInv_step hinv hstep

def RcState.Quiescent (s : RcState n) : Prop := ∀ t, ∃ last, s.pc t = .idle last

/-- **When no operation is in progress, `curr_allocated` is the number of extents in use.** -/
theorem currAllocated_eq_inUse {s : RcState n} (hinv : RcInv cfg s) (hquiet : s.Quiescent) :
    s.al.currAllocated = s.al.inUse cfg := by
  have huncounted : ∑ t, (s.pc t).uncounted = 0 := Finset.sum_eq_zero fun t _ => by
    obtain ⟨last, hlast⟩ := hquiet t
    rw [hlast]
    rfl
  have hovercounted : ∑ t, (s.pc t).overcounted = 0 := Finset.sum_eq_zero fun t _ => by
    obtain ⟨last, hlast⟩ := hquiet t
    rw [hlast]
    rfl
  have hcounted := hinv.counted
  rw [huncounted, hovercounted] at hcounted
  simpa using hcounted

end Alloc
end TreePass
