import TreePass.Lib.Transition
import TreePass.Cache.Evict
import Mathlib.Data.Finset.Card
import Mathlib.Logic.Function.Basic

/-!
# The extent allocator, access by access

`rc_allocator` keeps one reference count for each extent of the disk and a hand that all
allocations share.  An allocation moves the hand, looks at the extent it was given, claims it by
compare-and-swap and goes on until the hand is back where the scan began.  Here every access to
the hand, to a reference count and to a statistic is one step of one of `n` threads.

* `RcAllocator` is what the threads share, `AllocPc` the access a thread makes next.
* `accessNext` is one access, `Access` the list of what one access can do.
* A failed assertion ends the run: `accessNext` is then `none`.
-/

namespace TreePass
namespace Alloc

open Lib
open TreePass.Cache (PageType)

/-- `allocator_config`: the sizes the allocator works with.  A configuration without an extent is
refused by `rc_allocator_valid_config`. -/
structure AllocatorConfig where
  extentSize : Nat
  extentCapacity : Nat
  extentSize_pos : 0 < extentSize
  extentCapacity_pos : 0 < extentCapacity

/-- The values of a `refcount`. -/
def refcountMod : Nat := 2 ^ 32

/-- The values of the hand, a `uint64`. -/
def handMod : Nat := 2 ^ 64

/-- The words of `rc_allocator` and `rc_allocator_stats` that the threads share. -/
structure RcAllocator where
  refCount : Nat → Nat
  hand : Nat
  currAllocated : Int
  maxAllocated : Int
  extentAllocs : PageType → Int
  extentDeallocs : PageType → Int

/-- What an operation has returned: `STATUS_NO_SPACE`, an address, or a reference count. -/
inductive Returned where
  | noSpace
  | allocated (addr : Nat)
  | refCount (count : Nat)
  deriving DecidableEq, Repr

/-- The access a thread makes next. -/
inductive AllocPc where
  /-- Between operations; what the last one returned. -/
  | idle (last : Option Returned)
  /-- `rc_allocator_alloc`: about to take the next value of the hand. -/
  | scan (type : PageType) (firstHand : Nat)
  /-- About to read the reference count of the extent the hand gave. -/
  | look (type : PageType) (firstHand hand : Nat)
  /-- The extent looked free, about to compare-and-swap. -/
  | claim (type : PageType) (firstHand hand : Nat)
  /-- The extent is taken, about to count it. -/
  | count (type : PageType) (hand : Nat)
  /-- The loop that raises the high-water mark. -/
  | readMax (type : PageType) (hand : Nat) (currAllocated : Int)
  | raiseMax (type : PageType) (hand : Nat) (currAllocated maxAllocated : Int)
  | countType (type : PageType) (hand : Nat)
  /-- `rc_allocator_dec_ref`: the count has become 0, about to count the extent out. -/
  | uncount (type : PageType)
  | uncountType (type : PageType)
  deriving DecidableEq, Repr

/-- A call, or the next access of the call a thread is in. -/
inductive AllocAct where
  | alloc (type : PageType)
  | incRef (addr : Nat)
  | decRef (addr : Nat) (type : PageType)
  | next
  deriving DecidableEq, Repr

namespace RcAllocator

def setRef (al : RcAllocator) (extentNo count : Nat) : RcAllocator :=
  { al with refCount := Function.update al.refCount extentNo count }

@[simp] theorem setRef_self (al : RcAllocator) (e count : Nat) :
    (al.setRef e count).refCount e = count := Function.update_self ..

theorem setRef_of_ne (al : RcAllocator) {e e' : Nat} (count : Nat) (hne : e' ≠ e) :
    (al.setRef e count).refCount e' = al.refCount e' := Function.update_of_ne hne ..

def inUse (al : RcAllocator) (cfg : AllocatorConfig) : Nat :=
  ((Finset.range cfg.extentCapacity).filter fun e => al.refCount e ≠ 0).card

end RcAllocator

variable (cfg : AllocatorConfig)

/-- The loop test of `rc_allocator_alloc` after an extent it did not get: go on, or report that the
disk is full. -/
def afterMiss (type : PageType) (firstHand hand : Nat) : AllocPc :=
  if (hand + 1) % cfg.extentCapacity ≠ firstHand then .scan type firstHand
  else .idle (some .noSpace)

/-- `rc_allocator_inc_ref`. -/
def incRef (al : RcAllocator) (addr : Nat) : Option (RcAllocator × AllocPc) :=
  let extentNo := addr / cfg.extentSize
  let refCount := (al.refCount extentNo + 1) % refcountMod
  if extentNo < cfg.extentCapacity ∧ refCount ≠ 1 ∧ refCount ≠ 0 then
    some (al.setRef extentNo refCount, .idle (some (.refCount refCount)))
  else none

/-- `rc_allocator_dec_ref`, up to the accesses that count a freed extent out. -/
def decRef (al : RcAllocator) (addr : Nat) (type : PageType) : Option (RcAllocator × AllocPc) :=
  let extentNo := addr / cfg.extentSize
  let refCount := (al.refCount extentNo + (refcountMod - 1)) % refcountMod
  if extentNo < cfg.extentCapacity ∧ refCount ≠ refcountMod - 1 then
    if refCount = 0 then
      if type ≠ .invalid then some (al.setRef extentNo refCount, .uncount type) else none
    else some (al.setRef extentNo refCount, .idle (some (.refCount refCount)))
  else none

def pcNext (al : RcAllocator) : AllocPc → Option (RcAllocator × AllocPc)
  | .idle _ => none
  | .scan type firstHand =>
      some ({ al with hand := (al.hand + 1) % handMod },
        .look type firstHand (al.hand % cfg.extentCapacity))
  | .look type firstHand hand =>
      some (al, if al.refCount hand = 0 then .claim type firstHand hand
        else afterMiss cfg type firstHand hand)
  | .claim type firstHand hand =>
      some (if al.refCount hand = 0 then (al.setRef hand 2, .count type hand)
        else (al, afterMiss cfg type firstHand hand))
  | .count type hand =>
      some ({ al with currAllocated := al.currAllocated + 1 },
        .readMax type hand (al.currAllocated + 1))
  | .readMax type hand currAllocated =>
      some (al, if al.maxAllocated < currAllocated then
          .raiseMax type hand currAllocated al.maxAllocated
        else .countType type hand)
  | .raiseMax type hand currAllocated maxAllocated =>
      some (if al.maxAllocated = maxAllocated then { al with maxAllocated := currAllocated } else al,
        .readMax type hand currAllocated)
  | .countType type hand =>
      some ({ al with extentAllocs := Function.update al.extentAllocs type (al.extentAllocs type + 1) },
        .idle (some (.allocated (hand * cfg.extentSize))))
  | .uncount type =>
      some ({ al with currAllocated := al.currAllocated - 1 }, .uncountType type)
  | .uncountType type =>
      some ({ al with
          extentDeallocs := Function.update al.extentDeallocs type (al.extentDeallocs type + 1) },
        .idle (some (.refCount 0)))

def accessNext (al : RcAllocator) (pc : AllocPc) : AllocAct → Option (RcAllocator × AllocPc)
  | .next => pcNext cfg al pc
  | .alloc type =>
      match pc with
      | .idle _ => some (al, .scan type (al.hand % cfg.extentCapacity))
      | _ => none
  | .incRef addr =>
      match pc with
      | .idle _ => incRef cfg al addr
      | _ => none
  | .decRef addr type =>
      match pc with
      | .idle _ => decRef cfg al addr type
      | _ => none

/-- The allocator and all threads. -/
structure RcState (n : Nat) where
  al : RcAllocator
  pc : Fin n → AllocPc

variable {n : Nat}

def rcNext (s : RcState n) (a : Fin n × AllocAct) : Option (RcState n) :=
  (accessNext cfg s.al (s.pc a.1) a.2).map fun r =>
    { al := r.1, pc := Function.update s.pc a.1 r.2 }

/-- The allocator after `rc_allocator_mount`, or after `rc_allocator_init` has cleared it (then no
extent is in use): the reference counts as read from the disk, the hand at the first extent. -/
structure Mounted (s : RcState n) : Prop where
  refCount_lt : ∀ e, s.al.refCount e < refcountMod
  hand_zero : s.al.hand = 0
  currAllocated_eq : s.al.currAllocated = s.al.inUse cfg
  maxAllocated_zero : s.al.maxAllocated = 0
  idle : ∀ t, s.pc t = .idle none

/-- The interleavings of `rc_allocator_alloc`, `rc_allocator_inc_ref` and `rc_allocator_dec_ref`. -/
def rcSystem (n : Nat) : System (RcState n) (Fin n × AllocAct) :=
  System.ofFun (Mounted cfg) (rcNext cfg)

/-! ## What one access does -/

/-- The accesses, one constructor each. -/
inductive Access (al : RcAllocator) : AllocPc → AllocAct → RcAllocator → AllocPc → Prop
  | start (last : Option Returned) (type : PageType) :
      Access al (.idle last) (.alloc type) al (.scan type (al.hand % cfg.extentCapacity))
  | incRef (last : Option Returned) (addr : Nat) (hextent : addr / cfg.extentSize < cfg.extentCapacity)
      (hlive : al.refCount (addr / cfg.extentSize) ≠ 0)
      (hroom : al.refCount (addr / cfg.extentSize) + 1 < refcountMod) :
      Access al (.idle last) (.incRef addr)
        (al.setRef (addr / cfg.extentSize) (al.refCount (addr / cfg.extentSize) + 1))
        (.idle (some (.refCount (al.refCount (addr / cfg.extentSize) + 1))))
  | decRef (last : Option Returned) (addr : Nat) (type : PageType)
      (hextent : addr / cfg.extentSize < cfg.extentCapacity)
      (hlive : 1 < al.refCount (addr / cfg.extentSize)) :
      Access al (.idle last) (.decRef addr type)
        (al.setRef (addr / cfg.extentSize) (al.refCount (addr / cfg.extentSize) - 1))
        (.idle (some (.refCount (al.refCount (addr / cfg.extentSize) - 1))))
  | free (last : Option Returned) (addr : Nat) (type : PageType)
      (hextent : addr / cfg.extentSize < cfg.extentCapacity)
      (hlast : al.refCount (addr / cfg.extentSize) = 1) :
      Access al (.idle last) (.decRef addr type) (al.setRef (addr / cfg.extentSize) 0)
        (.uncount type)
  | scan (type : PageType) (firstHand : Nat) :
      Access al (.scan type firstHand) .next { al with hand := (al.hand + 1) % handMod }
        (.look type firstHand (al.hand % cfg.extentCapacity))
  | looksFree (type : PageType) (firstHand hand : Nat) (hfree : al.refCount hand = 0) :
      Access al (.look type firstHand hand) .next al (.claim type firstHand hand)
  | lookMiss (type : PageType) (firstHand hand : Nat) (hused : al.refCount hand ≠ 0) :
      Access al (.look type firstHand hand) .next al (afterMiss cfg type firstHand hand)
  | take (type : PageType) (firstHand hand : Nat) (hfree : al.refCount hand = 0) :
      Access al (.claim type firstHand hand) .next (al.setRef hand 2) (.count type hand)
  | claimMiss (type : PageType) (firstHand hand : Nat) (hused : al.refCount hand ≠ 0) :
      Access al (.claim type firstHand hand) .next al (afterMiss cfg type firstHand hand)
  | count (type : PageType) (hand : Nat) :
      Access al (.count type hand) .next { al with currAllocated := al.currAllocated + 1 }
        (.readMax type hand (al.currAllocated + 1))
  | belowMax (type : PageType) (hand : Nat) (curr : Int) (hmax : curr ≤ al.maxAllocated) :
      Access al (.readMax type hand curr) .next al (.countType type hand)
  | aboveMax (type : PageType) (hand : Nat) (curr : Int) (hmax : al.maxAllocated < curr) :
      Access al (.readMax type hand curr) .next al (.raiseMax type hand curr al.maxAllocated)
  | raised (type : PageType) (hand : Nat) (curr max : Int) (hmax : al.maxAllocated = max) :
      Access al (.raiseMax type hand curr max) .next { al with maxAllocated := curr }
        (.readMax type hand curr)
  | notRaised (type : PageType) (hand : Nat) (curr max : Int) (hmax : al.maxAllocated ≠ max) :
      Access al (.raiseMax type hand curr max) .next al (.readMax type hand curr)
  | countType (type : PageType) (hand : Nat) (allocs : PageType → Int) :
      Access al (.countType type hand) .next { al with extentAllocs := allocs }
        (.idle (some (.allocated (hand * cfg.extentSize))))
  | uncount (type : PageType) :
      Access al (.uncount type) .next { al with currAllocated := al.currAllocated - 1 }
        (.uncountType type)
  | uncountType (type : PageType) (deallocs : PageType → Int) :
      Access al (.uncountType type) .next { al with extentDeallocs := deallocs }
        (.idle (some (.refCount 0)))

variable {cfg}

theorem access_of_incRef {al al' : RcAllocator} {last : Option Returned} {pc' : AllocPc} {addr : Nat}
    (hbound : ∀ e, al.refCount e < refcountMod) (h : incRef cfg al addr = some (al', pc')) :
    Access cfg al (.idle last) (.incRef addr) al' pc' := by
  have hlt := hbound (addr / cfg.extentSize)
  simp only [Alloc.incRef] at h
  split at h
  next hok =>
    obtain ⟨hextent, hone, hzero⟩ := hok
    simp only [Option.some.injEq, Prod.mk.injEq] at h
    obtain ⟨rfl, rfl⟩ := h
    -- The sum did not wrap, or the assertion on 0 would have failed.
    have hroom : al.refCount (addr / cfg.extentSize) + 1 < refcountMod := by
      by_contra hnot
      have heq : al.refCount (addr / cfg.extentSize) + 1 = refcountMod := by omega
      rw [heq, Nat.mod_self] at hzero
      exact hzero rfl
    rw [Nat.mod_eq_of_lt hroom] at hone ⊢
    exact Access.incRef last addr hextent (by omega) hroom
  next => cases h

theorem access_of_decRef {al al' : RcAllocator} {last : Option Returned} {pc' : AllocPc} {addr : Nat}
    {type : PageType} (hbound : ∀ e, al.refCount e < refcountMod)
    (h : decRef cfg al addr type = some (al', pc')) :
    Access cfg al (.idle last) (.decRef addr type) al' pc' := by
  have hlt := hbound (addr / cfg.extentSize)
  have hpos : 0 < refcountMod := Nat.two_pow_pos 32
  simp only [Alloc.decRef] at h
  split at h
  next hok =>
    obtain ⟨hextent, hwrap⟩ := hok
    have hlive : al.refCount (addr / cfg.extentSize) ≠ 0 := by
      intro hzero
      rw [hzero, Nat.zero_add, Nat.mod_eq_of_lt (by omega)] at hwrap
      exact hwrap rfl
    have hval : (al.refCount (addr / cfg.extentSize) + (refcountMod - 1)) % refcountMod =
        al.refCount (addr / cfg.extentSize) - 1 := by
      have hsum : al.refCount (addr / cfg.extentSize) + (refcountMod - 1) =
          al.refCount (addr / cfg.extentSize) - 1 + refcountMod := by omega
      rw [hsum, Nat.add_mod_right, Nat.mod_eq_of_lt (by omega)]
    rw [hval] at h
    split at h
    next hzero =>
      split at h
      next htype =>
        simp only [Option.some.injEq, Prod.mk.injEq] at h
        obtain ⟨rfl, rfl⟩ := h
        rw [hzero]
        exact Access.free last addr type hextent (by omega)
      next => cases h
    next hmore =>
      simp only [Option.some.injEq, Prod.mk.injEq] at h
      obtain ⟨rfl, rfl⟩ := h
      exact Access.decRef last addr type hextent (by omega)
  next => cases h

theorem access_of_pcNext {al al' : RcAllocator} {pc pc' : AllocPc}
    (h : pcNext cfg al pc = some (al', pc')) : Access cfg al pc .next al' pc' := by
  cases pc with
  | idle last => cases h
  | scan type firstHand =>
      obtain ⟨rfl, rfl⟩ := Prod.mk.inj (Option.some.inj h)
      exact Access.scan type firstHand
  | look type firstHand hand =>
      obtain ⟨rfl, rfl⟩ := Prod.mk.inj (Option.some.inj h)
      by_cases hfree : al.refCount hand = 0
      · rw [if_pos hfree]
        exact Access.looksFree type firstHand hand hfree
      · rw [if_neg hfree]
        exact Access.lookMiss type firstHand hand hfree
  | claim type firstHand hand =>
      simp only [pcNext, Option.some.injEq] at h
      by_cases hfree : al.refCount hand = 0
      · rw [if_pos hfree] at h
        obtain ⟨rfl, rfl⟩ := Prod.mk.inj h
        exact Access.take type firstHand hand hfree
      · rw [if_neg hfree] at h
        obtain ⟨rfl, rfl⟩ := Prod.mk.inj h
        exact Access.claimMiss type firstHand hand hfree
  | count type hand =>
      obtain ⟨rfl, rfl⟩ := Prod.mk.inj (Option.some.inj h)
      exact Access.count type hand
  | readMax type hand curr =>
      obtain ⟨rfl, rfl⟩ := Prod.mk.inj (Option.some.inj h)
      by_cases hmax : al.maxAllocated < curr
      · rw [if_pos hmax]
        exact Access.aboveMax type hand curr hmax
      · rw [if_neg hmax]
        exact Access.belowMax type hand curr (Int.not_lt.mp hmax)
  | raiseMax type hand curr max =>
      obtain ⟨rfl, rfl⟩ := Prod.mk.inj (Option.some.inj h)
      by_cases hmax : al.maxAllocated = max
      · rw [if_pos hmax]
        exact Access.raised type hand curr max hmax
      · rw [if_neg hmax]
        exact Access.notRaised type hand curr max hmax
  | countType type hand =>
      obtain ⟨rfl, rfl⟩ := Prod.mk.inj (Option.some.inj h)
      exact Access.countType type hand _
  | uncount type =>
      obtain ⟨rfl, rfl⟩ := Prod.mk.inj (Option.some.inj h)
      exact Access.uncount type
  | uncountType type =>
      obtain ⟨rfl, rfl⟩ := Prod.mk.inj (Option.some.inj h)
      exact Access.uncountType type _

theorem access_of_accessNext {al al' : RcAllocator} {pc pc' : AllocPc} {act : AllocAct}
    (hbound : ∀ e, al.refCount e < refcountMod) (h : accessNext cfg al pc act = some (al', pc')) :
    Access cfg al pc act al' pc' := by
  cases act with
  | next => exact access_of_pcNext h
  | alloc type =>
      cases pc with
      | idle last =>
          obtain ⟨rfl, rfl⟩ := Prod.mk.inj (Option.some.inj h)
          exact Access.start last type
      | _ => cases h
  | incRef addr =>
      cases pc with
      | idle last => exact access_of_incRef hbound h
      | _ => cases h
  | decRef addr type =>
      cases pc with
      | idle last => exact access_of_decRef hbound h
      | _ => cases h

/-- **What one step does.**  The thread of the step moves, the others stay where they are. -/
theorem access_of_rcNext {s s' : RcState n} {t : Fin n} {act : AllocAct}
    (hbound : ∀ e, s.al.refCount e < refcountMod) (h : rcNext cfg s (t, act) = some s') :
    Access cfg s.al (s.pc t) act s'.al (s'.pc t) ∧ ∀ r, r ≠ t → s'.pc r = s.pc r := by
  simp only [rcNext, Option.map_eq_some_iff] at h
  obtain ⟨⟨al', pc'⟩, hnext, rfl⟩ := h
  refine ⟨?_, fun r hr => Function.update_of_ne hr _ _⟩
  change Access cfg s.al (s.pc t) act al' (Function.update s.pc t pc' t)
  rw [Function.update_self]
  exact access_of_accessNext hbound hnext

end Alloc
end TreePass
