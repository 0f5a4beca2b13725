import TreePass.Tasks.ThreadSlots

/-!
# Thread slots in every run

Whatever calls threads make, and wherever the calls fail, ids and scratch areas stay consistent.

* `SlotInv` is the invariant: an id that is free belongs to no thread and has no scratch area.
* `CallSafe` is what one call does, and `SlotInv.call` proves it for every call.
* `thread_slots_safe` is what holds in every reachable state.
-/

namespace TreePass
namespace Tasks

open Lib (testAt ffs)

namespace ThreadSlots

/-! ## Ids -/

theorem scanBitmask_spec (words : List (BitVec 64)) :
    ∀ (i : Nat) (oldBitmask : BitVec 64) {pos : Nat}, pos = 0 →
      ((scanBitmask words i oldBitmask pos).2.2 = 0 ∧ ∀ w ∈ words, ffs w = 0) ∨
        ∃ j w, words[j]? = some w ∧ ffs w ≠ 0 ∧
          scanBitmask words i oldBitmask pos = (i + j + 1, w, ffs w) := by
  induction words with
  | nil =>
      rintro i oldBitmask pos rfl
      exact Or.inl ⟨rfl, fun w hw => absurd hw List.not_mem_nil⟩
  | cons word words ih =>
      rintro i oldBitmask pos rfl
      have hstep : scanBitmask (word :: words) i oldBitmask 0 =
          scanBitmask words (i + 1) word (ffs word) := if_pos rfl
      rw [hstep]
      by_cases hword : ffs word = 0
      · rcases ih (i + 1) word hword with ⟨hnone, hall⟩ | ⟨j, w, hj, hw, heq⟩
        · exact Or.inl ⟨hnone, List.forall_mem_cons.mpr ⟨hword, hall⟩⟩
        · refine Or.inr ⟨j + 1, w, hj, hw, heq.trans ?_⟩
          rw [Nat.add_right_comm i 1 j, Nat.add_assoc i j 1]
      · refine Or.inr ⟨0, word, rfl, hword, ?_⟩
        cases words with
        | nil => rfl
        | cons word' words => exact if_neg hword

theorem allocateThreadid_spec (s : ThreadSlots) (hwords : s.tidBitmask.length = 2) :
    (s.allocateThreadid = .ok (none, s) ∧ ∀ id, id < maxThreads → s.InUse id) ∨
      ∃ id bitmask max, s.allocateThreadid =
          .ok (some id, { s with tidBitmask := bitmask, maxTid := max }) ∧
        id < maxThreads ∧ testAt s.tidBitmask id = true ∧ bitmask.length = 2 ∧
        ∀ i, testAt bitmask i = (testAt s.tidBitmask i && decide (i ≠ id)) := by
  unfold allocateThreadid
  rcases scanBitmask_spec s.tidBitmask 0 0 rfl with
    ⟨hnone, hall⟩ | ⟨j, w, hj, hw, heq⟩
  · left
    refine ⟨if_pos hnone, fun id hid => ⟨hid, ?_⟩⟩
    unfold testAt
    cases hget : s.tidBitmask[id / 64]? with
    | none => rfl
    | some w =>
        exact Lib.ffs_eq_zero (hall w (List.mem_of_getElem? hget)) (Nat.mod_lt id (by decide))
  · right
    obtain ⟨hbit, hset⟩ := Lib.ffs_spec hw
    have hlt : j < 2 := hwords ▸ (List.getElem?_eq_some_iff.mp hj).1
    rw [heq]
    have hindex : 0 + j + 1 - 1 = j := by omega
    dsimp only
    rw [hindex, if_neg hw, if_pos hj]
    refine ⟨_, _, _, rfl, ?_, ?_, ?_, ?_⟩
    · show ffs w - 1 + j * 64 < 128
      omega
    · unfold testAt
      rw [show (ffs w - 1 + j * 64) / 64 = j by omega,
        show (ffs w - 1 + j * 64) % 64 = ffs w - 1 by omega, hj]
      exact hset
    · rw [List.length_set, hwords]
    · intro i
      rw [Lib.testAt_set (List.getElem?_eq_some_iff.mp hj).1]
      have hmod : i % 64 < 64 := Nat.mod_lt i (by decide)
      by_cases hi : i / 64 = j
      · rw [if_pos hi, ← BitVec.twoPow_eq, Lib.getLsbD_clear w hmod]
        unfold testAt
        rw [hi, hj]
        show (w.getLsbD (i % 64) && _) = (w.getLsbD (i % 64) && _)
        congr 1
        rw [decide_eq_decide]
        omega
      · rw [if_neg hi, decide_eq_true (by omega : i ≠ ffs w - 1 + j * 64), Bool.and_true]

theorem deallocateThreadid_spec (s : ThreadSlots) (hwords : s.tidBitmask.length = 2) {id : Nat}
    (huse : s.InUse id) :
    ∃ bitmask, s.deallocateThreadid id = .ok { s with tidBitmask := bitmask } ∧
      bitmask.length = 2 ∧ ∀ i, testAt bitmask i = (testAt s.tidBitmask i || decide (i = id)) := by
  obtain ⟨hlt, hbit⟩ := huse
  have hword : id / 64 < s.tidBitmask.length := by
    rw [hwords]
    have : id < 128 := hlt
    omega
  have hget := List.getElem?_eq_getElem hword
  unfold testAt at hbit
  rw [hget] at hbit
  unfold deallocateThreadid
  rw [hget]
  dsimp only
  rw [if_neg (by rw [show s.tidBitmask[id / 64].getLsbD (id % 64) = false from hbit]; simp)]
  refine ⟨_, rfl, ?_, ?_⟩
  · rw [List.length_set, hwords]
  · intro i
    rw [Lib.testAt_set hword]
    have hmod : i % 64 < 64 := Nat.mod_lt i (by decide)
    by_cases hi : i / 64 = id / 64
    · rw [if_pos hi, ← BitVec.twoPow_eq, Lib.getLsbD_insert _ hmod]
      unfold testAt
      rw [hi, hget]
      show (s.tidBitmask[id / 64].getLsbD (i % 64) || _) =
        (s.tidBitmask[id / 64].getLsbD (i % 64) || _)
      congr 1
      rw [decide_eq_decide]
      omega
    · have hne : i ≠ id := by
        rintro rfl
        exact hi rfl
      rw [if_neg hi, decide_eq_false hne, Bool.or_false]

/-! ## The invariant -/

/-- **The invariant.**  An id that is free belongs to no thread and has no scratch area, and every
scratch area belongs to one id until it is freed. -/
structure SlotInv (s : ThreadSlots) : Prop where
  words : s.tidBitmask.length = 2
  inUse : ∀ t, s.tid t ≠ invalidTid → s.InUse (s.tid t)
  distinct : ∀ t u, s.tid t ≠ invalidTid → s.tid t = s.tid u → t = u
  unused : ∀ id, ¬ s.InUse id → s.threadScratch id = none
  live : ∀ id p, s.threadScratch id = some p → p < s.nextScratch ∧ p ∉ s.freed
  owner : ∀ id id' p, s.threadScratch id = some p → s.threadScratch id' = some p → id = id'
  freed_lt : ∀ p ∈ s.freed, p < s.nextScratch
  freed_nodup : s.freed.Nodup

theorem slotInv_init : SlotInv init where
  words := rfl
  inUse := fun t ht => absurd rfl ht
  distinct := fun t u ht => absurd rfl ht
  unused := fun _ _ => rfl
  live := by
    intro id p hp
    cases hp
  owner := by
    intro id id' p hp
    cases hp
  freed_lt := fun p hp => absurd hp List.not_mem_nil
  freed_nodup := List.nodup_nil

variable {s : ThreadSlots}

theorem SlotInv.take (h : SlotInv s) (max : Nat) {id : Nat} {bitmask : List (BitVec 64)}
    (hlt : id < maxThreads) (hfree : testAt s.tidBitmask id = true) (hlen : bitmask.length = 2)
    (hbits : ∀ i, testAt bitmask i = (testAt s.tidBitmask i && decide (i ≠ id))) :
    SlotInv { s with tidBitmask := bitmask, maxTid := max } ∧
      ({ s with tidBitmask := bitmask, maxTid := max } : ThreadSlots).InUse id ∧
      s.threadScratch id = none ∧ ∀ t, s.tid t ≠ id := by
  have hnot : ¬ s.InUse id := fun huse => Bool.noConfusion (hfree.symm.trans huse.2)
  have hkeep : ∀ i, s.InUse i →
      ({ s with tidBitmask := bitmask, maxTid := max } : ThreadSlots).InUse i := by
    rintro i ⟨hi, hbit⟩
    refine ⟨hi, ?_⟩
    show testAt bitmask i = false
    rw [hbits i, hbit, Bool.false_and]
  refine ⟨⟨hlen, fun t ht => hkeep _ (h.inUse t ht), h.distinct, ?_, h.live, h.owner, h.freed_lt,
    h.freed_nodup⟩, ⟨hlt, ?_⟩, h.unused id hnot, ?_⟩
  · exact fun i hi => h.unused i fun huse => hi (hkeep i huse)
  · show testAt bitmask id = false
    rw [hbits id, decide_eq_false (not_not_intro rfl), Bool.and_false]
  · rintro t rfl
    refine hnot (h.inUse t ?_)
    rintro heq
    rw [heq] at hlt
    exact Nat.lt_irrefl _ hlt

theorem SlotInv.allocScratch (h : SlotInv s) {id : Nat} (huse : s.InUse id) :
    SlotInv (s.allocScratch id) := by
  have hself : (s.allocScratch id).threadScratch id = some s.nextScratch := Function.update_self ..
  have hother : ∀ i, i ≠ id → (s.allocScratch id).threadScratch i = s.threadScratch i :=
    fun i hi => Function.update_of_ne hi ..
  refine ⟨h.words, h.inUse, h.distinct, ?_, ?_, ?_, ?_, h.freed_nodup⟩
  · intro i hi
    have hne : i ≠ id := by
      rintro rfl
      exact hi huse
    rw [hother i hne]
    exact h.unused i hi
  · intro i p hp
    show p < s.nextScratch + 1 ∧ p ∉ s.freed
    by_cases hi : i = id
    · rw [hi, hself] at hp
      obtain rfl := Option.some.inj hp
      exact ⟨Nat.lt_succ_self _, fun hmem => Nat.lt_irrefl _ (h.freed_lt _ hmem)⟩
    · rw [hother i hi] at hp
      obtain ⟨hlt, hnot⟩ := h.live i p hp
      exact ⟨Nat.lt_succ_of_lt hlt, hnot⟩
  · intro i i' p hp hp'
    by_cases hi : i = id
    · by_cases hi' : i' = id
      · rw [hi, hi']
      · rw [hi, hself] at hp
        rw [hother i' hi', ← hp] at hp'
        exact absurd (h.live i' _ hp').1 (Nat.lt_irrefl _)
    · rw [hother i hi] at hp
      by_cases hi' : i' = id
      · rw [hi', hself, ← hp] at hp'
        exact absurd (h.live i _ hp'.symm).1 (Nat.lt_irrefl _)
      · rw [hother i' hi'] at hp'
        exact h.owner i i' p hp hp'
  · exact fun p hp => Nat.lt_succ_of_lt (h.freed_lt p hp)

theorem SlotInv.freeScratch (h : SlotInv s) (id : Nat) :
    SlotInv (s.freeScratch id) ∧ (s.freeScratch id).threadScratch =
      Function.update s.threadScratch id none ∧
      (s.freeScratch id).tidBitmask = s.tidBitmask ∧ (s.freeScratch id).tid = s.tid := by
  unfold ThreadSlots.freeScratch
  cases hscratch : s.threadScratch id with
  | none =>
      refine ⟨h, ?_, rfl, rfl⟩
      show s.threadScratch = _
      rw [← hscratch, Function.update_eq_self]
  | some scratch =>
      obtain ⟨hlt, hnot⟩ := h.live id scratch hscratch
      refine ⟨⟨h.words, h.inUse, h.distinct, ?_, ?_, ?_, ?_, List.nodup_cons.mpr
        ⟨hnot, h.freed_nodup⟩⟩, rfl, rfl, rfl⟩
      · intro i hi
        show Function.update s.threadScratch id none i = none
        by_cases heq : i = id
        · rw [heq, Function.update_self]
        · rw [Function.update_of_ne heq]
          exact h.unused i hi
      · intro i p hp
        have hne : i ≠ id := by
          rintro rfl
          have hnone : Function.update s.threadScratch i none i = some p := hp
          rw [Function.update_self] at hnone
          cases hnone
        have hp' : s.threadScratch i = some p := (Function.update_of_ne hne ..).symm.trans hp
        refine ⟨(h.live i p hp').1, fun hmem => ?_⟩
        rcases List.mem_cons.mp hmem with heq | hmem
        · exact hne (h.owner i id p hp' (hscratch.trans (congrArg some heq.symm)))
        · exact (h.live i p hp').2 hmem
      · intro i i' p hp hp'
        have hold : ∀ j, Function.update s.threadScratch id none j = some p →
            s.threadScratch j = some p := by
          intro j hj
          by_cases heq : j = id
          · rw [heq, Function.update_self] at hj
            cases hj
          · rw [Function.update_of_ne heq] at hj
            exact hj
        exact h.owner i i' p (hold i hp) (hold i' hp')
      · exact List.forall_mem_cons.mpr ⟨hlt, h.freed_lt⟩

theorem SlotInv.setTid (h : SlotInv s) (t : Nat) {id : Nat} (huse : s.InUse id)
    (hnobody : ∀ u, s.tid u ≠ id) : SlotInv (s.setTid t id) := by
  have hself : (s.setTid t id).tid t = id := Function.update_self ..
  have hother : ∀ u, u ≠ t → (s.setTid t id).tid u = s.tid u := fun u hu =>
    Function.update_of_ne hu ..
  refine ⟨h.words, ?_, ?_, h.unused, h.live, h.owner, h.freed_lt, h.freed_nodup⟩
  · intro u hu
    by_cases heq : u = t
    · rw [heq, hself]
      exact huse
    · rw [hother u heq] at hu ⊢
      exact h.inUse u hu
  · intro u v hu huv
    by_cases hut : u = t
    · by_cases hvt : v = t
      · rw [hut, hvt]
      · rw [hut, hself, hother v hvt] at huv
        exact absurd huv.symm (hnobody v)
    · rw [hother u hut] at hu huv
      by_cases hvt : v = t
      · rw [hvt, hself] at huv
        exact absurd huv (hnobody u)
      · rw [hother v hvt] at huv
        exact h.distinct u v hu huv

theorem SlotInv.unsetTid (h : SlotInv s) (t : Nat) : SlotInv (s.setTid t invalidTid) := by
  have hself : (s.setTid t invalidTid).tid t = invalidTid := Function.update_self ..
  have hother : ∀ u, u ≠ t → (s.setTid t invalidTid).tid u = s.tid u := fun u hu =>
    Function.update_of_ne hu ..
  have hne : ∀ u, (s.setTid t invalidTid).tid u ≠ invalidTid → u ≠ t := by
    rintro u hu rfl
    exact hu hself
  -- only the ids of other threads are left
  refine ⟨h.words, ?_, ?_, h.unused, h.live, h.owner, h.freed_lt, h.freed_nodup⟩
  · intro u hu
    have hut := hne u hu
    rw [hother u hut] at hu ⊢
    exact h.inUse u hu
  · intro u v hu huv
    have hut := hne u hu
    have hvt := hne v fun hv => hu (huv.trans hv)
    rw [hother u hut] at hu huv
    rw [hother v hvt] at huv
    exact h.distinct u v hu huv

theorem SlotInv.giveBack (h : SlotInv s) {id : Nat} (huse : s.InUse id)
    (hnobody : ∀ t, s.tid t ≠ id) (hscratch : s.threadScratch id = none) (status : CallStatus) :
    ∃ s', s.giveBack id status = .ok (status, s') ∧ SlotInv s' ∧
      s'.threadScratch = s.threadScratch ∧
      ∀ i, testAt s'.tidBitmask i = (testAt s.tidBitmask i || decide (i = id)) := by
  obtain ⟨bitmask, hrun, hlen, hbits⟩ := s.deallocateThreadid_spec h.words huse
  unfold ThreadSlots.giveBack
  rw [hrun]
  refine ⟨_, rfl, ⟨hlen, ?_, h.distinct, ?_, h.live, h.owner, h.freed_lt, h.freed_nodup⟩, rfl,
    hbits⟩
  · intro t ht
    obtain ⟨hlt, hbit⟩ := h.inUse t ht
    refine ⟨hlt, ?_⟩
    show testAt bitmask (s.tid t) = false
    rw [hbits, hbit, decide_eq_false (hnobody t)]
    rfl
  · intro i hi
    by_cases heq : i = id
    · rw [heq]
      exact hscratch
    · refine h.unused i fun huse => hi ⟨huse.1, ?_⟩
      show testAt bitmask i = false
      rw [hbits, huse.2, decide_eq_false heq]
      rfl

/-! ## Calls -/

/-- **What a call does**: it is refused for want of an id only if all are in use, and a call that
fails changes neither the ids in use nor the scratch table. -/
structure CallSafe (s : ThreadSlots) (status : CallStatus) (s' : ThreadSlots) : Prop where
  inv : SlotInv s'
  refused : status = .busy → ∀ id, id < maxThreads → s.InUse id
  unchanged : status ≠ .ok →
    (∀ id, s'.InUse id ↔ s.InUse id) ∧ s'.threadScratch = s.threadScratch

/-- A call by thread `t` returns and is safe, or it was not for this thread to make. -/
def Safe (s : ThreadSlots) (t : Nat) : Except SlotAssertion (CallStatus × ThreadSlots) → Prop
  | .ok (status, s') => CallSafe s status s'
  | .error e => (e = .alreadyRegistered ∧ s.tid t ≠ invalidTid) ∨
      (e = .notRegistered ∧ s.tid t = invalidTid)

theorem SlotInv.busy (h : SlotInv s) (hall : ∀ id, id < maxThreads → s.InUse id) :
    CallSafe s .busy s where
  inv := h
  refused := fun _ => hall
  unchanged := fun _ => ⟨fun _ => Iff.rfl, rfl⟩

theorem SlotInv.undo (h : SlotInv s) {id : Nat} {bitmask : List (BitVec 64)} {s' : ThreadSlots}
    (hfree : testAt s.tidBitmask id = true)
    (hbits : ∀ i, testAt bitmask i = (testAt s.tidBitmask i && decide (i ≠ id)))
    (hnobody : ∀ t, s.tid t ≠ id) (hinv : SlotInv s') (huse : s'.InUse id)
    (hbitmask : s'.tidBitmask = bitmask) (htid : s'.tid = s.tid)
    (hscratch : s'.threadScratch = s.threadScratch) (t : Nat) {status : CallStatus}
    (hfailed : status ≠ .busy) : Safe s t (s'.giveBack id status) := by
  have hnot : ¬ s.InUse id := fun huse => Bool.noConfusion (hfree.symm.trans huse.2)
  obtain ⟨s'', hrun, hinv'', hscratch'', hbits''⟩ := hinv.giveBack huse
    (fun u => htid ▸ hnobody u) (hscratch ▸ h.unused id hnot) status
  rw [hrun]
  refine ⟨hinv'', fun hbusy => absurd hbusy hfailed, fun _ => ⟨fun i => ?_, ?_⟩⟩
  · have hbit : testAt s''.tidBitmask i = testAt s.tidBitmask i := by
      rw [hbits'' i, hbitmask, hbits i]
      by_cases hi : i = id
      · rw [hi, hfree, decide_eq_true rfl, Bool.or_true]
      · rw [decide_eq_true hi, decide_eq_false hi, Bool.and_true, Bool.or_false]
    unfold InUse
    rw [hbit]
  · exact hscratch''.trans hscratch

theorem SlotInv.done {s' : ThreadSlots} (h : SlotInv s') : CallSafe s .ok s' where
  inv := h
  refused := nofun
  unchanged := fun hne => absurd rfl hne

theorem SlotInv.taskRegisterThread (h : SlotInv s) (t scratchSize : Nat) (hasMemory : Bool) :
    Safe s t (s.taskRegisterThread t scratchSize hasMemory) := by
  unfold ThreadSlots.taskRegisterThread
  by_cases htid : s.tid t = invalidTid ∨ s.tid t = 0
  · rw [if_neg (not_not_intro htid)]
    rcases s.allocateThreadid_spec h.words with ⟨hnone, hall⟩ | ⟨id, bitmask, max, hsome, hlt,
      hfree, hlen, hbits⟩
    · rw [hnone]
      exact h.busy hall
    · obtain ⟨htaken, huse, hscratch, hnobody⟩ := h.take max hlt hfree hlen hbits
      rw [hsome]
      dsimp only
      rw [if_neg (not_not_intro hscratch)]
      by_cases hmemory : 0 < scratchSize ∧ hasMemory = false
      · rw [if_pos hmemory]
        exact h.undo hfree hbits hnobody htaken huse rfl rfl rfl t nofun
      · rw [if_neg hmemory, if_neg (not_not_intro hlt)]
        by_cases hsize : 0 < scratchSize
        · rw [if_pos hsize]
          exact ((htaken.allocScratch huse).setTid t huse hnobody).done
        · rw [if_neg hsize]
          exact (htaken.setTid t huse hnobody).done
  · rw [if_pos htid]
    exact Or.inl ⟨rfl, fun h => htid (Or.inl h)⟩

theorem SlotInv.taskDeregisterThread (h : SlotInv s) (t : Nat) :
    Safe s t (s.taskDeregisterThread t) := by
  unfold ThreadSlots.taskDeregisterThread
  by_cases htid : s.tid t = invalidTid
  · rw [if_pos htid]
    exact Or.inr ⟨rfl, htid⟩
  · rw [if_neg htid]
    obtain ⟨hfreed, hscratch, hbits, htids⟩ := h.freeScratch (s.tid t)
    have hinv := hfreed.unsetTid t
    have huse : ((s.freeScratch (s.tid t)).setTid t invalidTid).InUse (s.tid t) := by
      obtain ⟨hlt, hbit⟩ := h.inUse t htid
      exact ⟨hlt, (congrArg (testAt · (s.tid t)) hbits).trans hbit⟩
    have hnobody : ∀ u, ((s.freeScratch (s.tid t)).setTid t invalidTid).tid u ≠ s.tid t := by
      intro u
      show Function.update (s.freeScratch (s.tid t)).tid t invalidTid u ≠ s.tid t
      by_cases hu : u = t
      · rw [hu, Function.update_self]
        exact Ne.symm htid
      · rw [Function.update_of_ne hu, htids]
        exact fun heq => hu (h.distinct t u htid heq.symm).symm
    have hnone : ((s.freeScratch (s.tid t)).setTid t invalidTid).threadScratch (s.tid t) = none := by
      show (s.freeScratch (s.tid t)).threadScratch (s.tid t) = none
      rw [hscratch, Function.update_self]
    obtain ⟨s', hrun, hinv', -, -⟩ := hinv.giveBack huse hnobody hnone .ok
    rw [hrun]
    exact hinv'.done

theorem SlotInv.taskThreadCreate (h : SlotInv s) (t thread scratchSize : Nat)
    (hasMemory hasArgMemory created : Bool) :
    Safe s t (s.taskThreadCreate thread scratchSize hasMemory hasArgMemory created) := by
  unfold ThreadSlots.taskThreadCreate
  rcases s.allocateThreadid_spec h.words with ⟨hnone, hall⟩ | ⟨id, bitmask, max, hsome, hlt,
    hfree, hlen, hbits⟩
  · rw [hnone]
    exact h.busy hall
  · obtain ⟨htaken, huse, hscratch, hnobody⟩ := h.take max hlt hfree hlen hbits
    rw [hsome]
    dsimp only
    by_cases hmemory : 0 < scratchSize ∧ hasMemory = false
    · rw [if_pos hmemory]
      exact h.undo hfree hbits hnobody htaken huse rfl rfl rfl t nofun
    · rw [if_neg hmemory]
      -- with or without a scratch area the failures free what the id has
      have hcases : ∀ s' : ThreadSlots, SlotInv s' → s'.InUse id → s'.tidBitmask = bitmask →
          s'.tid = s.tid → Function.update s'.threadScratch id none = s.threadScratch →
          Safe s t (if hasArgMemory = false then (s'.freeScratch id).giveBack id .noMemory
            else if created = false then (s'.freeScratch id).giveBack id .createFailed
            else if ¬ id < maxThreads then .error .idTooLarge
            else .ok (.ok, s'.setTid thread id)) := by
        intro s' hinv' huse' hbitmask htid htable
        obtain ⟨hfreed, hscratch', hbits', htids⟩ := hinv'.freeScratch id
        have hundo : ∀ status : CallStatus, status ≠ .busy →
            Safe s t ((s'.freeScratch id).giveBack id status) := fun status hstatus =>
          h.undo hfree hbits hnobody hfreed
            ⟨huse'.1, (congrArg (testAt · id) hbits').trans huse'.2⟩ (hbits'.trans hbitmask)
            (htids.trans htid) (hscratch'.trans htable) t hstatus
        by_cases harg : hasArgMemory = false
        · rw [if_pos harg]
          exact hundo .noMemory nofun
        · rw [if_neg harg]
          by_cases hcreated : created = false
          · rw [if_pos hcreated]
            exact hundo .createFailed nofun
          · rw [if_neg hcreated, if_neg (not_not_intro hlt)]
            exact (hinv'.setTid thread huse' fun u => htid ▸ hnobody u).done
      by_cases hsize : 0 < scratchSize
      · rw [if_pos hsize]
        refine hcases _ (htaken.allocScratch huse) huse rfl rfl ?_
        show Function.update (Function.update s.threadScratch id _) id none = _
        rw [Function.update_idem, ← hscratch, Function.update_eq_self]
      · rw [if_neg hsize]
        refine hcases _ htaken huse rfl rfl ?_
        rw [← hscratch, Function.update_eq_self]

theorem SlotInv.call (h : SlotInv s) (t : Nat) (c : ThreadCall) : Safe s t (s.call t c) := by
  cases c with
  | register scratchSize hasMemory => exact h.taskRegisterThread t scratchSize hasMemory
  | deregister => exact h.taskDeregisterThread t
  | create thread scratchSize hasMemory hasArgMemory created =>
      exact h.taskThreadCreate t thread scratchSize hasMemory hasArgMemory created

end ThreadSlots

/-! ## Every run -/

theorem threadSystem_step {s s' : ThreadSlots} {a : Nat × ThreadCall} (h : s.SlotInv)
    (hstep : threadSystem.step s a s') : s'.SlotInv := by
  change s.next a = some s' at hstep
  unfold ThreadSlots.next at hstep
  by_cases hfresh : s.Fresh a.2
  · rw [if_pos hfresh] at hstep
    have hsafe := h.call a.1 a.2
    cases hcall : s.call a.1 a.2 with
    | error e =>
        rw [hcall] at hstep
        cases hstep
    | ok r =>
        rw [hcall] at hstep hsafe
        obtain rfl := Option.some.inj hstep
        exact hsafe.inv
  · rw [if_neg hfresh] at hstep
    cases hstep

theorem threadSystem_inv {s : ThreadSlots} (hreach : threadSystem.Reachable s) : s.SlotInv := by
  apply hreach.invariant
  · rintro s rfl
    exact ThreadSlots.slotInv_init
  · exact fun s a s' h hstep => threadSystem_step h hstep

/-- **Thread slots.**  After any calls, wherever they failed: the ids of the threads are distinct,
in use and below `maxThreads`; an id that is not in use has no scratch area; no scratch area was
freed twice; and whatever call any thread makes next, no assertion fails but those about the
caller, the call is refused only if all ids are in use, and if it fails then the ids in use and the
scratch table are as before. -/
theorem thread_slots_safe {s : ThreadSlots} (hreach : threadSystem.Reachable s) :
    (∀ t, s.tid t ≠ invalidTid → s.tid t < maxThreads ∧ s.InUse (s.tid t)) ∧
      (∀ t u, s.tid t ≠ invalidTid → s.tid t = s.tid u → t = u) ∧
      (∀ id, ¬ s.InUse id → s.threadScratch id = none) ∧ s.freed.Nodup ∧
      ∀ (t : Nat) (c : ThreadCall), s.Safe t (s.call t c) := by
  have h := threadSystem_inv hreach
  exact ⟨fun t ht => ⟨(h.inUse t ht).1, h.inUse t ht⟩, h.distinct, h.unused, h.freed_nodup, h.call⟩

/-- A thread registers itself, fails to create a second one and creates a third, which ends. -/
private def threeThreads : List (Nat × ThreadCall) :=
  [(0, .register 8 true), (0, .create 1 8 true true false), (0, .create 2 8 true true true),
    (2, .deregister)]

/-- After the calls of three threads two scratch areas have been freed and the first thread has
its id. -/
theorem thread_slots_safe_three :
    ∃ s, threadSystem.Reachable s ∧ s.tid 0 = 0 ∧ s.freed = [2, 1] ∧ s.InUse 0 ∧
      s.threadScratch 1 = none ∧ s.freed.Nodup ∧
      ∀ (t : Nat) (c : ThreadCall), s.Safe t (s.call t c) := by
  obtain ⟨tr, s, hrun, hend⟩ := Lib.System.exists_run (· = ThreadSlots.init) ThreadSlots.next
    ThreadSlots.init threeThreads (P := fun _ s => decide (s.tid 0 = 0 ∧ s.freed = [2, 1] ∧
      testAt s.tidBitmask 1 = true)) (by decide +kernel)
  obtain ⟨htid, hfreed, hfree⟩ := of_decide_eq_true hend
  have hreach : threadSystem.Reachable s := ⟨ThreadSlots.init, tr, rfl, hrun⟩
  obtain ⟨huse, -, hunused, hnodup, hsafe⟩ := thread_slots_safe hreach
  have hzero : s.tid 0 ≠ invalidTid := by
    rw [htid]
    decide
  have hone : ¬ s.InUse 1 := fun h => Bool.noConfusion (hfree.symm.trans h.2)
  exact ⟨s, hreach, htid, hfreed, htid ▸ (huse 0 hzero).2, hunused 1 hone, hnodup, hsafe⟩

end Tasks
end TreePass
