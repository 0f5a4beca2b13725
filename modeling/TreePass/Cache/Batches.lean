import TreePass.Lib.Ownership
import TreePass.Lib.Transition

/-!
# Who owns a batch of the clock

The clock of the cache moves in batches of entries.  `treepass_move_hand` gives the calling thread
a batch to take free entries from, and on the way starts the writeback of a batch further on.  Both
uses share the flag `batch_busy` of the batch.

* `BatchState` is what the threads share and where each of them stands in `treepass_move_hand`;
  `moveHandStep` is one access of one thread.
* `Owns`, `Cleans` and `Transfers` are the three ways in which a thread can have a batch.
* `batches_owned_of_reachable`: the flags say exactly which batches the threads have.
-/

namespace TreePass
namespace Cache

open Lib Lib.System

/-- The sizes `treepass_move_hand` works with. -/
structure BatchConfig where
  batchCapacity : Nat
  cleanerGap : Nat

/-- The access a thread makes next in `treepass_move_hand`. -/
inductive MoveHandPc where
  /-- Outside `treepass_move_hand`. -/
  | idle
  /-- About to clear the flag of the batch it leaves. -/
  | release
  /-- About to move the evict hand. -/
  | moveHand
  /-- About to take the batch ahead for cleaning. -/
  | startClean (evictHand : Nat)
  /-- In `treepass_batch_start_writeback`. -/
  | writeback (evictHand : Nat)
  /-- About to clear the flag of the batch it has cleaned. -/
  | endClean (evictHand : Nat)
  /-- About to take the batch at the hand. -/
  | claim (evictHand : Nat)
  /-- In `treepass_evict_batch_ee` and `treepass_evict_batch`, then about to write `free_hand`. -/
  | evict (evictHand : Nat)
  deriving DecidableEq, Repr

variable {τ : Type*} [DecidableEq τ] (cfg : BatchConfig)

/-- What the threads share, and their places.  `freeHand = none` is `TP_UNMAPPED_ENTRY`. -/
structure BatchState (τ : Type*) where
  evictHand : Nat
  batchBusy : Nat → Bool
  freeHand : τ → Option Nat
  pc : τ → MoveHandPc

namespace BatchState

def setPc (s : BatchState τ) (t : τ) (pc : MoveHandPc) : BatchState τ :=
  { s with pc := Function.update s.pc t pc }

/-- `__sync_bool_compare_and_swap` on the flag of a batch, without its result. -/
def casBusy (s : BatchState τ) (batch : Nat) (old new : Bool) : BatchState τ :=
  if s.batchBusy batch = old then { s with batchBusy := Function.update s.batchBusy batch new } else s

end BatchState

/-- The batch that is cleaned when the hand is at `evictHand`. -/
def cleanerHand (evictHand : Nat) : Nat := (evictHand + cfg.cleanerGap) % cfg.batchCapacity

/-- The values of the evict hand, a `uint32`. -/
def evictHandMod : Nat := 4294967296

/-- The next access of a thread; an idle thread calls `treepass_move_hand`. -/
def moveHandStep (s : BatchState τ) (t : τ) : BatchState τ :=
  match s.pc t with
  | .idle =>
      match s.freeHand t with
      | none => s.setPc t .moveHand
      | some _ => s.setPc t .release
  | .release =>
      match s.freeHand t with
      | none => s.setPc t .moveHand
      | some batch => (s.casBusy batch true false).setPc t .moveHand
  | .moveHand =>
      let hand := (s.evictHand + 1) % evictHandMod
      { s with evictHand := hand }.setPc t (.startClean (hand % cfg.batchCapacity))
  | .startClean h =>
      if s.batchBusy (cleanerHand cfg h) = false then
        (s.casBusy (cleanerHand cfg h) false true).setPc t (.writeback h)
      else s.setPc t (.claim h)
  | .writeback h => s.setPc t (.endClean h)
  | .endClean h => (s.casBusy (cleanerHand cfg h) true false).setPc t (.claim h)
  | .claim h =>
      if s.batchBusy h = false then (s.casBusy h false true).setPc t (.evict h)
      else s.setPc t .moveHand
  | .evict h =>
      { s with freeHand := Function.update s.freeHand t (some (h % cfg.batchCapacity)) }.setPc t .idle

/-- The cache as `treepass_init` leaves it. -/
structure BatchInit (s : BatchState τ) : Prop where
  evictHand_eq : s.evictHand = 1
  batchBusy_eq : ∀ b, s.batchBusy b = false
  freeHand_eq : ∀ t, s.freeHand t = none
  idle : ∀ t, s.pc t = .idle

/-- The interleavings of `treepass_move_hand`. -/
def batchSystem (τ : Type*) [DecidableEq τ] : System (BatchState τ) τ where
  init := BatchInit
  step s t s' := s' = moveHandStep cfg s t

/-! ## Having a batch -/

namespace BatchState

/-- The batch is the one the thread takes its free entries from.  From the access that gives it
back on, `free_hand` still has its number and means nothing. -/
def Owns (s : BatchState τ) (t : τ) (batch : Nat) : Prop :=
  (s.pc t = .idle ∨ s.pc t = .release) ∧ s.freeHand t = some batch

def Cleans (s : BatchState τ) (t : τ) (batch : Nat) : Prop :=
  ∃ h, (s.pc t = .writeback h ∨ s.pc t = .endClean h) ∧ batch = cleanerHand cfg h

/-- The thread has taken the batch and is evicting from it before it makes it its own. -/
def Transfers (s : BatchState τ) (t : τ) (batch : Nat) : Prop := s.pc t = .evict batch

end BatchState

/-- The batch a thread has at a place of `treepass_move_hand`. -/
def MoveHandPc.Has (cfg : BatchConfig) (freeHand : Option Nat) (batch : Nat) : MoveHandPc → Prop
  | .idle | .release => freeHand = some batch
  | .writeback h | .endClean h => batch = cleanerHand cfg h
  | .evict h => batch = h
  | _ => False

def BatchState.Has (s : BatchState τ) (t : τ) (batch : Nat) : Prop :=
  (s.pc t).Has cfg (s.freeHand t) batch

variable {cfg}

omit [DecidableEq τ] in
theorem has_iff (s : BatchState τ) (t : τ) (batch : Nat) :
    s.Has cfg t batch ↔ s.Owns t batch ∨ s.Cleans cfg t batch ∨ s.Transfers t batch := by
  unfold BatchState.Has BatchState.Owns BatchState.Cleans BatchState.Transfers
  cases s.pc t <;> simp [MoveHandPc.Has, eq_comm]

omit [DecidableEq τ] in
theorem has_unique {s : BatchState τ} {t : τ} {b c : Nat} (hb : s.Has cfg t b)
    (hc : s.Has cfg t c) : b = c := by
  unfold BatchState.Has at hb hc
  cases hpc : s.pc t with
  | idle | release =>
      rw [hpc] at hb hc
      exact Option.some.inj (hb.symm.trans hc)
  | writeback h | endClean h | evict h =>
      rw [hpc] at hb hc
      exact hb.trans hc.symm
  | _ =>
      rw [hpc] at hb
      exact hb.elim

def MoveHandPc.OnClock (cfg : BatchConfig) : MoveHandPc → Prop
  | .startClean h | .writeback h | .endClean h | .claim h | .evict h => h % cfg.batchCapacity = h
  | _ => True

/-- What every state of a run has. -/
structure BatchInv (cfg : BatchConfig) (s : BatchState τ) : Prop where
  owned : Owned s.batchBusy (s.Has cfg)
  mapped : ∀ t, s.pc t = .release → (s.freeHand t).isSome
  onClock : ∀ t, (s.pc t).OnClock cfg

omit [DecidableEq τ] in
theorem batchInv_init {s : BatchState τ} (h : BatchInit s) : BatchInv cfg s where
  owned := by
    refine Owned.of_free h.batchBusy_eq fun t b hb => ?_
    unfold BatchState.Has at hb
    rw [h.idle t, h.freeHand_eq t] at hb
    exact Option.some_ne_none b hb.symm
  mapped := by
    intro t hpc
    rw [h.idle t] at hpc
    cases hpc
  onClock := by
    intro t
    rw [h.idle t]
    exact trivial

theorem has_update {s s' : BatchState τ} {t : τ} {pc : MoveHandPc}
    (hpc : s'.pc = Function.update s.pc t pc) (hfree : ∀ u, u ≠ t → s'.freeHand u = s.freeHand u) :
    s'.Has cfg = Function.update (s.Has cfg) t fun b => pc.Has cfg (s'.freeHand t) b := by
  funext u
  by_cases hu : u = t
  · subst hu
    funext b
    simp [BatchState.Has, hpc]
  · funext b
    simp [BatchState.Has, hpc, hu, hfree u hu]

theorem batchInv_of_owned {s s' : BatchState τ} {t : τ} {pc : MoveHandPc} (hinv : BatchInv cfg s)
    (hpc : s'.pc = Function.update s.pc t pc) (hfree : ∀ u, u ≠ t → s'.freeHand u = s.freeHand u)
    (hmapped : pc = .release → (s'.freeHand t).isSome) (hclock : pc.OnClock cfg)
    (howned : Owned s'.batchBusy
      (Function.update (s.Has cfg) t fun b => pc.Has cfg (s'.freeHand t) b)) :
    BatchInv cfg s' where
  owned := by
    rw [has_update hpc hfree]
    exact howned
  mapped := by
    intro u hu
    rw [hpc] at hu
    by_cases heq : u = t
    · subst heq
      rw [Function.update_self] at hu
      exact hmapped hu
    · rw [Function.update_of_ne heq] at hu
      rw [hfree u heq]
      exact hinv.mapped u hu
  onClock := by
    intro u
    rw [hpc]
    by_cases heq : u = t
    · subst heq
      rw [Function.update_self]
      exact hclock
    · rw [Function.update_of_ne heq]
      exact hinv.onClock u

theorem batchInv_setPc {s : BatchState τ} {t : τ} {pc : MoveHandPc} (hinv : BatchInv cfg s)
    (hmapped : pc = .release → (s.freeHand t).isSome) (hclock : pc.OnClock cfg)
    (hsame : ∀ b, pc.Has cfg (s.freeHand t) b ↔ s.Has cfg t b) : BatchInv cfg (s.setPc t pc) :=
  batchInv_of_owned hinv rfl (fun _ _ => rfl) hmapped hclock (hinv.owned.keep hsame)

theorem batchInv_take {s : BatchState τ} {t : τ} {pc : MoveHandPc} {batch : Nat}
    (hinv : BatchInv cfg s) (hbusy : s.batchBusy batch = false) (hnone : ∀ b, ¬ s.Has cfg t b)
    (hrelease : pc ≠ .release) (hclock : pc.OnClock cfg)
    (hnew : ∀ b, pc.Has cfg (s.freeHand t) b ↔ b = batch) :
    BatchInv cfg ((s.casBusy batch false true).setPc t pc) := by
  have hcas : s.casBusy batch false true =
      { s with batchBusy := Function.update s.batchBusy batch true } := if_pos hbusy
  rw [hcas]
  refine batchInv_of_owned hinv rfl (fun _ _ => rfl) (fun h => absurd h hrelease) hclock ?_
  exact hinv.owned.take hbusy fun b => (hnew b).trans (by simp [hnone b])

theorem batchInv_drop {s : BatchState τ} {t : τ} {pc : MoveHandPc} {batch : Nat}
    (hinv : BatchInv cfg s) (hheld : s.Has cfg t batch) (hrelease : pc ≠ .release)
    (hclock : pc.OnClock cfg) (hnew : ∀ b, ¬ pc.Has cfg (s.freeHand t) b) :
    BatchInv cfg ((s.casBusy batch true false).setPc t pc) := by
  have hbusy := hinv.owned.busy_of_holds hheld
  have hcas : s.casBusy batch true false =
      { s with batchBusy := Function.update s.batchBusy batch false } := if_pos hbusy
  rw [hcas]
  refine batchInv_of_owned hinv rfl (fun _ _ => rfl) (fun h => absurd h hrelease) hclock ?_
  refine hinv.owned.drop hheld fun b => ?_
  constructor
  · intro hb
    exact absurd hb (hnew b)
  · rintro ⟨hb, hne⟩
    exact absurd (has_unique hb hheld) hne

theorem batchInv_step {s : BatchState τ} (t : τ) (hinv : BatchInv cfg s) :
    BatchInv cfg (moveHandStep cfg s t) := by
  have hclock := hinv.onClock t
  cases hpc : s.pc t with
  | idle =>
      simp only [moveHandStep, hpc]
      cases hfree : s.freeHand t with
      | none =>
          refine batchInv_setPc hinv (fun h => by cases h) trivial fun b => ?_
          simp [BatchState.Has, MoveHandPc.Has, hpc, hfree]
      | some batch =>
          refine batchInv_setPc hinv (fun _ => by rw [hfree]; rfl) trivial fun b => ?_
          simp [BatchState.Has, MoveHandPc.Has, hpc]
  | release =>
      simp only [moveHandStep, hpc]
      obtain ⟨batch, hfree⟩ := Option.isSome_iff_exists.mp (hinv.mapped t hpc)
      rw [hfree]
      refine batchInv_drop hinv ?_ (fun h => by cases h) trivial fun b hb => hb
      simp [BatchState.Has, MoveHandPc.Has, hpc, hfree]
  | moveHand =>
      simp only [moveHandStep, hpc]
      refine batchInv_of_owned hinv rfl (fun _ _ => rfl) (fun h => by cases h)
        (Nat.mod_mod _ _) (hinv.owned.keep fun b => ?_)
      simp [BatchState.Has, MoveHandPc.Has, hpc]
  | startClean h =>
      simp only [moveHandStep, hpc]
      rw [hpc] at hclock
      by_cases hbusy : s.batchBusy (cleanerHand cfg h) = false
      · rw [if_pos hbusy]
        refine batchInv_take hinv hbusy (fun b => ?_) (fun h => by cases h) hclock fun b => Iff.rfl
        simp [BatchState.Has, MoveHandPc.Has, hpc]
      · rw [if_neg hbusy]
        refine batchInv_setPc hinv (fun h => by cases h) hclock fun b => ?_
        simp [BatchState.Has, MoveHandPc.Has, hpc]
  | writeback h =>
      simp only [moveHandStep, hpc]
      rw [hpc] at hclock
      refine batchInv_setPc hinv (fun h => by cases h) hclock fun b => ?_
      simp [BatchState.Has, MoveHandPc.Has, hpc]
  | endClean h =>
      simp only [moveHandStep, hpc]
      rw [hpc] at hclock
      refine batchInv_drop hinv ?_ (fun h => by cases h) hclock fun b hb => hb
      simp [BatchState.Has, MoveHandPc.Has, hpc]
  | claim h =>
      simp only [moveHandStep, hpc]
      rw [hpc] at hclock
      by_cases hbusy : s.batchBusy h = false
      · rw [if_pos hbusy]
        refine batchInv_take hinv hbusy (fun b => ?_) (fun h => by cases h) hclock fun b => Iff.rfl
        simp [BatchState.Has, MoveHandPc.Has, hpc]
      · rw [if_neg hbusy]
        refine batchInv_setPc hinv (fun h => by cases h) trivial fun b => ?_
        simp [BatchState.Has, MoveHandPc.Has, hpc]
  | evict h =>
      simp only [moveHandStep, hpc]
      rw [hpc] at hclock
      refine batchInv_of_owned hinv rfl (fun u hu => Function.update_of_ne hu _ _)
        (fun h => by cases h) trivial (hinv.owned.keep fun b => ?_)
      -- The hand is on the clock, so the batch it makes its own is the one it has evicted from.
      have hsame : h % cfg.batchCapacity = h := hclock
      simp [BatchState.Has, MoveHandPc.Has, BatchState.setPc, hpc, hsame, eq_comm]

theorem batchInv_of_reachable {s : BatchState τ} (h : (batchSystem cfg τ).Reachable s) :
    BatchInv cfg s := by
  refine h.invariant (fun _ => batchInv_init) ?_
  rintro s t s' hinv rfl
  exact batchInv_step t hinv

/-! ## Ownership -/

/-- What the flags say about the batches. -/
structure BatchesOwned (cfg : BatchConfig) (s : BatchState τ) : Prop where
  /-- A batch has one owner at most. -/
  one_owner : ∀ t u b, s.Owns t b → s.Owns u b → t = u
  /-- One thread at most cleans a batch. -/
  one_cleaner : ∀ t u b, s.Cleans cfg t b → s.Cleans cfg u b → t = u
  /-- A batch that is cleaned has no owner. -/
  not_both : ∀ t u b, s.Owns t b → ¬ s.Cleans cfg u b
  /-- A batch in transfer has no owner, is not cleaned and is in no other transfer. -/
  transfer : ∀ t u b, s.Transfers t b → ¬ s.Owns u b ∧ ¬ s.Cleans cfg u b ∧
    (s.Transfers u b → t = u)
  /-- The flag is set exactly while the batch is owned, cleaned or in transfer. -/
  busy_iff : ∀ b, s.batchBusy b = true ↔
    ∃ t, s.Owns t b ∨ s.Cleans cfg t b ∨ s.Transfers t b
  /-- The compare-and-swap that leaves a batch finds it busy, -/
  release_finds_busy : ∀ t, s.pc t = .release → ∃ b, s.freeHand t = some b ∧ s.batchBusy b = true
  /-- and so does the one at the end of the cleaning. -/
  endClean_finds_busy : ∀ t h, s.pc t = .endClean h → s.batchBusy (cleanerHand cfg h) = true

omit [DecidableEq τ] in
theorem one_way (cfg : BatchConfig) (s : BatchState τ) (t : τ) (b : Nat) :
    ¬ (s.Owns t b ∧ s.Cleans cfg t b) ∧ ¬ (s.Owns t b ∧ s.Transfers t b) ∧
      ¬ (s.Cleans cfg t b ∧ s.Transfers t b) := by
  unfold BatchState.Owns BatchState.Cleans BatchState.Transfers
  cases s.pc t <;> simp

omit [DecidableEq τ] in
theorem BatchInv.batchesOwned {s : BatchState τ} (hinv : BatchInv cfg s) : BatchesOwned cfg s where
  one_owner t u b ht hu :=
    hinv.owned.exclusive ((has_iff s t b).mpr (Or.inl ht)) ((has_iff s u b).mpr (Or.inl hu))
  one_cleaner t u b ht hu :=
    hinv.owned.exclusive ((has_iff s t b).mpr (Or.inr (Or.inl ht)))
      ((has_iff s u b).mpr (Or.inr (Or.inl hu)))
  not_both t u b ht hu := by
    obtain rfl := hinv.owned.exclusive ((has_iff s t b).mpr (Or.inl ht))
      ((has_iff s u b).mpr (Or.inr (Or.inl hu)))
    exact (one_way cfg s t b).1 ⟨ht, hu⟩
  transfer t u b ht := by
    have hhas : s.Has cfg t b := (has_iff s t b).mpr (Or.inr (Or.inr ht))
    refine ⟨fun hu => ?_, fun hu => ?_, fun hu => ?_⟩
    · obtain rfl := hinv.owned.exclusive hhas ((has_iff s u b).mpr (Or.inl hu))
      exact (one_way cfg s t b).2.1 ⟨hu, ht⟩
    · obtain rfl := hinv.owned.exclusive hhas ((has_iff s u b).mpr (Or.inr (Or.inl hu)))
      exact (one_way cfg s t b).2.2 ⟨hu, ht⟩
    · exact hinv.owned.exclusive hhas ((has_iff s u b).mpr (Or.inr (Or.inr hu)))
  busy_iff b := by
    rw [hinv.owned.busy_iff b]
    exact exists_congr fun t => has_iff s t b
  release_finds_busy t hpc := by
    obtain ⟨b, hfree⟩ := Option.isSome_iff_exists.mp (hinv.mapped t hpc)
    refine ⟨b, hfree, hinv.owned.busy_of_holds (t := t) ?_⟩
    exact (has_iff s t b).mpr (Or.inl ⟨Or.inr hpc, hfree⟩)
  endClean_finds_busy t h hpc :=
    hinv.owned.busy_of_holds ((has_iff s t _).mpr (Or.inr (Or.inl ⟨h, Or.inr hpc, rfl⟩)))

private def oneThread : BatchState Unit :=
  { evictHand := 1, batchBusy := fun _ => false, freeHand := fun _ => none, pc := fun _ => .idle }

end Cache
end TreePass
