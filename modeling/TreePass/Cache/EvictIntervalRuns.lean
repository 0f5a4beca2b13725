import TreePass.Cache.EvictInterval

/-!
# The commits of the eviction interval

The cycle, its timestamp and the interval are three words, and the compare-and-exchange covers only
the first.  A thread that reads the timestamp while another one has committed but not stored its own
measures from an older commit.  And the counter of passes wraps: once the last cycle before the wrap
has been committed, no later one is.

* `EiInv` is what every state has, and `commits_increasing` follows from it.
* `canCommit_iff` says when a later cycle can still be committed: a thread that runs alone gets
  there.
* `eiGood_iff`: the commits of a run are right, and can go on, exactly if each of them meets
  `EiExact`, and `eiExact_of_noOverlap` says how to meet it.
-/

namespace TreePass
namespace Cache

open Lib Lib.System

variable {n : Nat} (cfg : EiConfig) {ts : Nat}

/-! ## Every state -/

def maxCycle : Nat := (2 ^ 32 - 1) / cfg.batchCap

def EiPlace (clock : Nat) : EiPc → Prop
  | .idle => True
  | .timestamp cycle => cycle ≤ maxCycle cfg
  | .loadCycle cycle now => cycle ≤ maxCycle cfg ∧ now ≤ clock
  | .loadTs cycle now expected => cycle ≤ maxCycle cfg ∧ now ≤ clock ∧ expected < cycle
  | .loadEi cycle now expected lastTs =>
      cycle ≤ maxCycle cfg ∧ now ≤ clock ∧ expected < cycle ∧ lastTs < now
  | .cas cycle now expected lastTs ei =>
      cycle ≤ maxCycle cfg ∧ now ≤ clock ∧ expected < cycle ∧ lastTs < now ∧
        ∃ old, ei = newEi cfg old ((now - lastTs) / (cycle - expected))
  | .storeEi now _ | .storeTs now | .storeCheckTs now => now ≤ clock

/-- **The invariant.** -/
structure EiInv (s : EiState n) : Prop where
  batches_lt : s.evictBatches < 2 ^ 32
  lastTs_le : s.lastCycleTs ≤ s.clock
  cycle_le : s.lastEiCheckCycle ≤ maxCycle cfg
  boundary : s.lastEiCheckCycle = boundaryCycle s.commits
  place : ∀ t, EiPlace cfg s.clock (s.pc t)
  increasing : (s.commits.map (·.cycle)).Pairwise (· > ·)
  computed : ∀ c ∈ s.commits, ∃ old, c.newEi = newEi cfg old (c.elapsed / c.numCycles)

theorem eiInv_init : EiInv cfg (EiState.init ts : EiState n) where
  batches_lt := Nat.two_pow_pos 32
  lastTs_le := Nat.le_refl _
  cycle_le := Nat.zero_le _
  boundary := rfl
  place := fun _ => trivial
  increasing := List.Pairwise.nil
  computed := fun _ hc => absurd hc List.not_mem_nil

variable {cfg}

theorem EiPlace.mono {clock clock' : Nat} (hle : clock ≤ clock') {pc : EiPc}
    (h : EiPlace cfg clock pc) : EiPlace cfg clock' pc := by
  cases pc with
  | idle => trivial
  | timestamp cycle => exact h
  | loadCycle cycle now => exact ⟨h.1, Nat.le_trans h.2 hle⟩
  | loadTs cycle now expected => exact ⟨h.1, Nat.le_trans h.2.1 hle, h.2.2⟩
  | loadEi cycle now expected lastTs => exact ⟨h.1, Nat.le_trans h.2.1 hle, h.2.2⟩
  | cas cycle now expected lastTs ei => exact ⟨h.1, Nat.le_trans h.2.1 hle, h.2.2⟩
  | storeEi now ei => exact Nat.le_trans h hle
  | storeTs now => exact Nat.le_trans h hle
  | storeCheckTs now => exact Nat.le_trans h hle

variable {s : EiState n} {t : Fin (n + 1)}

theorem EiInv.setPc (h : EiInv cfg s) {pc : EiPc} (hpc : EiPlace cfg s.clock pc) :
    EiInv cfg (s.setPc t pc) := by
  refine ⟨h.batches_lt, h.lastTs_le, h.cycle_le, h.boundary, ?_, h.increasing, h.computed⟩
  intro u
  show EiPlace cfg s.clock (Function.update s.pc t pc u)
  by_cases hu : u = t
  · rw [hu, Function.update_self]
    exact hpc
  · rw [Function.update_of_ne hu]
    exact h.place u

theorem EiInv.countBatch (h : EiInv cfg s) : EiInv cfg (s.countBatch cfg t) := by
  have hlt : (s.evictBatches + 1) % 2 ^ 32 < 2 ^ 32 := Nat.mod_lt _ (by decide)
  have hcounted : EiInv cfg { s with evictBatches := (s.evictBatches + 1) % 2 ^ 32 } :=
    ⟨hlt, h.lastTs_le, h.cycle_le, h.boundary, h.place, h.increasing, h.computed⟩
  apply hcounted.setPc
  by_cases hends : (s.evictBatches + 1) % 2 ^ 32 % cfg.batchCap = 0 ∧
      0 < (s.evictBatches + 1) % 2 ^ 32 / cfg.batchCap
  · rw [if_pos hends]
    exact Nat.div_le_div_right (Nat.le_pred_of_lt hlt)
  · rw [if_neg hends]
    trivial

theorem EiInv.commit (h : EiInv cfg s) {cycle now expected lastTs ei : Nat}
    (hpc : s.pc t = .cas cycle now expected lastTs ei) :
    EiInv cfg (s.commit t cycle now expected lastTs ei) := by
  have hplace := h.place t
  rw [hpc] at hplace
  obtain ⟨hcycle, hnow, hlt, hts, hei⟩ := hplace
  unfold EiState.commit
  by_cases hsame : s.lastEiCheckCycle = expected
  · rw [if_pos hsame]
    have hgrown : EiInv cfg { s with
        lastEiCheckCycle := cycle
        commits := ⟨cycle, now, now - lastTs, cycle - expected, ei⟩ :: s.commits } := by
      refine ⟨h.batches_lt, h.lastTs_le, hcycle, rfl, h.place, ?_, ?_⟩
      · refine List.pairwise_cons.mpr ⟨fun c hc => ?_, h.increasing⟩
        -- the last commit is the largest
        have hboundary := h.boundary
        have hincreasing := h.increasing
        cases hcommits : s.commits with
        | nil =>
            rw [hcommits] at hc
            cases hc
        | cons last rest =>
            rw [hcommits] at hc hboundary hincreasing
            have hlast : last.cycle = expected := hboundary.symm.trans hsame
            rcases List.mem_cons.mp hc with heq | hc
            · rw [heq]
              show last.cycle < cycle
              rw [hlast]
              exact hlt
            · have hless : c < last.cycle := (List.pairwise_cons.mp hincreasing).1 c hc
              exact Nat.lt_trans (Nat.lt_of_lt_of_eq hless hlast) hlt
      · exact List.forall_mem_cons.mpr ⟨hei, h.computed⟩
    exact hgrown.setPc hnow
  · rw [if_neg hsame]
    exact h.setPc trivial

theorem EiInv.step (h : EiInv cfg s) {a : EiAct n} {s' : EiState n}
    (hstep : eiNext cfg s a = some s') : EiInv cfg s' := by
  have hplace := h.place a.thread
  unfold eiNext at hstep
  cases hpc : s.pc a.thread with
  | idle =>
      rw [hpc] at hstep
      exact Option.some.inj hstep ▸ h.countBatch
  | timestamp cycle =>
      rw [hpc] at hstep hplace
      dsimp only at hstep
      by_cases htime : s.clock < a.time
      · rw [if_pos htime] at hstep
        have hle := Nat.le_of_lt htime
        have hlater : EiInv cfg { s with clock := a.time } :=
          ⟨h.batches_lt, Nat.le_trans h.lastTs_le hle, h.cycle_le, h.boundary,
            fun u => (h.place u).mono hle, h.increasing, h.computed⟩
        exact Option.some.inj hstep ▸ hlater.setPc ⟨hplace, Nat.le_refl _⟩
      · rw [if_neg htime] at hstep
        cases hstep
  | loadCycle cycle now =>
      rw [hpc] at hstep hplace
      refine Option.some.inj hstep ▸ h.setPc ?_
      by_cases hle : cycle ≤ s.lastEiCheckCycle
      · rw [if_pos hle]
        trivial
      · rw [if_neg hle]
        exact ⟨hplace.1, hplace.2, Nat.lt_of_not_le hle⟩
  | loadTs cycle now expected =>
      rw [hpc] at hstep hplace
      refine Option.some.inj hstep ▸ h.setPc ?_
      by_cases hle : now ≤ s.lastCycleTs
      · rw [if_pos hle]
        trivial
      · rw [if_neg hle]
        exact ⟨hplace.1, hplace.2.1, hplace.2.2, Nat.lt_of_not_le hle⟩
  | loadEi cycle now expected lastTs =>
      rw [hpc] at hstep hplace
      refine Option.some.inj hstep ▸ h.setPc ?_
      exact ⟨hplace.1, hplace.2.1, hplace.2.2.1, hplace.2.2.2, _, rfl⟩
  | cas cycle now expected lastTs ei =>
      rw [hpc] at hstep
      exact Option.some.inj hstep ▸ h.commit hpc
  | storeEi now ei =>
      rw [hpc] at hstep hplace
      have hstored : EiInv cfg { s with evictIntervalThre := ei } :=
        ⟨h.batches_lt, h.lastTs_le, h.cycle_le, h.boundary, h.place, h.increasing, h.computed⟩
      exact Option.some.inj hstep ▸ hstored.setPc hplace
  | storeTs now =>
      rw [hpc] at hstep hplace
      have hstored : EiInv cfg { s with lastCycleTs := now } :=
        ⟨h.batches_lt, hplace, h.cycle_le, h.boundary, h.place, h.increasing, h.computed⟩
      exact Option.some.inj hstep ▸ hstored.setPc hplace
  | storeCheckTs now =>
      rw [hpc] at hstep
      have hstored : EiInv cfg { s with lastEiCheckTs := now } :=
        ⟨h.batches_lt, h.lastTs_le, h.cycle_le, h.boundary, h.place, h.increasing, h.computed⟩
      exact Option.some.inj hstep ▸ hstored.setPc trivial

/-! ## A later commit -/

def CanCommit (cfg : EiConfig) (ts : Nat) (s : EiState n) : Prop :=
  ∃ tr s', (eiSystem cfg n ts).Run s tr s' ∧ s.commits.length < s'.commits.length

/-- A thread that runs alone commits, or it becomes idle and has changed neither the commits nor the
counter. -/
def Finishes (cfg : EiConfig) (ts : Nat) (t : Fin (n + 1)) (s : EiState n) : Prop :=
  ∃ tr s', (eiSystem cfg n ts).Run s tr s' ∧ EiInv cfg s' ∧
    (s.commits.length < s'.commits.length ∨ s'.pc t = .idle ∧ s'.commits = s.commits ∧
      s'.evictBatches = s.evictBatches)

private theorem Finishes.cons {s' : EiState n} {time : Nat} (h : EiInv cfg s)
    (hstep : eiNext cfg s ⟨t, time⟩ = some s') (hcommits : s'.commits = s.commits)
    (hbatches : s'.evictBatches = s.evictBatches)
    (hrest : EiInv cfg s' → Finishes cfg ts t s') : Finishes cfg ts t s := by
  obtain ⟨tr, s'', hrun, hinv, hend⟩ := hrest (h.step hstep)
  refine ⟨_, s'', Run.cons hstep hrun, hinv, ?_⟩
  rw [hcommits, hbatches] at hend
  exact hend

private theorem CanCommit.cons {s' : EiState n} {a : EiAct n} (hstep : eiNext cfg s a = some s')
    (hcommits : s'.commits = s.commits) (h : CanCommit cfg ts s') : CanCommit cfg ts s := by
  obtain ⟨tr, s'', hrun, hmore⟩ := h
  rw [hcommits] at hmore
  exact ⟨_, s'', Run.cons hstep hrun, hmore⟩

private theorem finishes_of_idle (h : EiInv cfg s) (hpc : s.pc t = .idle) : Finishes cfg ts t s :=
  ⟨[], s, Run.nil, h, Or.inr ⟨hpc, rfl, rfl⟩⟩

@[simp] theorem setPc_pc_self (pc : EiPc) : (s.setPc t pc).pc t = pc := Function.update_self ..

private theorem finishes_storeCheckTs (h : EiInv cfg s) {now : Nat}
    (hpc : s.pc t = .storeCheckTs now) : Finishes cfg ts t s := by
  have hstep : eiNext cfg s ⟨t, 0⟩ =
      some ({ s with lastEiCheckTs := now }.setPc t .idle) := by
    unfold eiNext
    rw [hpc]
  exact Finishes.cons h hstep rfl rfl fun hinv => finishes_of_idle hinv (setPc_pc_self _)

private theorem finishes_storeTs (h : EiInv cfg s) {now : Nat} (hpc : s.pc t = .storeTs now) :
    Finishes cfg ts t s := by
  have hstep : eiNext cfg s ⟨t, 0⟩ =
      some ({ s with lastCycleTs := now }.setPc t (.storeCheckTs now)) := by
    unfold eiNext
    rw [hpc]
  exact Finishes.cons h hstep rfl rfl fun hinv => finishes_storeCheckTs hinv (setPc_pc_self _)

private theorem finishes_storeEi (h : EiInv cfg s) {now ei : Nat} (hpc : s.pc t = .storeEi now ei) :
    Finishes cfg ts t s := by
  have hstep : eiNext cfg s ⟨t, 0⟩ =
      some ({ s with evictIntervalThre := ei }.setPc t (.storeTs now)) := by
    unfold eiNext
    rw [hpc]
  exact Finishes.cons h hstep rfl rfl fun hinv => finishes_storeTs hinv (setPc_pc_self _)

variable (ts)

private theorem finishes_cas (h : EiInv cfg s) {cycle now expected lastTs ei : Nat}
    (hpc : s.pc t = .cas cycle now expected lastTs ei) :
    Finishes cfg ts t s ∧ (s.lastEiCheckCycle = expected → CanCommit cfg ts s) := by
  have hstep : eiNext cfg s ⟨t, 0⟩ = some (s.commit t cycle now expected lastTs ei) := by
    unfold eiNext
    rw [hpc]
  have hinv := h.step hstep
  have hrun : (eiSystem cfg n ts).Run s [(s, ⟨t, 0⟩)]
      (s.commit t cycle now expected lastTs ei) := Run.cons hstep Run.nil
  by_cases hsame : s.lastEiCheckCycle = expected
  · have hmore : s.commits.length < (s.commit t cycle now expected lastTs ei).commits.length := by
      unfold EiState.commit
      rw [if_pos hsame]
      exact Nat.lt_succ_self _
    exact ⟨⟨_, _, hrun, hinv, Or.inl hmore⟩, fun _ => ⟨_, _, hrun, hmore⟩⟩
  · refine ⟨⟨_, _, hrun, hinv, Or.inr ?_⟩, fun heq => absurd heq hsame⟩
    unfold EiState.commit
    rw [if_neg hsame]
    exact ⟨setPc_pc_self _, rfl, rfl⟩

private theorem finishes_loadEi (h : EiInv cfg s) {cycle now expected lastTs : Nat}
    (hpc : s.pc t = .loadEi cycle now expected lastTs) :
    Finishes cfg ts t s ∧ (s.lastEiCheckCycle = expected → CanCommit cfg ts s) := by
  have hstep : eiNext cfg s ⟨t, 0⟩ = some (s.setPc t (.cas cycle now expected lastTs
      (newEi cfg s.evictIntervalThre ((now - lastTs) / (cycle - expected))))) := by
    unfold eiNext
    rw [hpc]
  have hnext := finishes_cas ts (h.step hstep) (setPc_pc_self _)
  exact ⟨Finishes.cons h hstep rfl rfl fun _ => hnext.1,
    fun hsame => CanCommit.cons hstep rfl (hnext.2 hsame)⟩

private theorem finishes_loadTs (h : EiInv cfg s) {cycle now expected : Nat}
    (hpc : s.pc t = .loadTs cycle now expected) :
    Finishes cfg ts t s ∧
      (s.lastEiCheckCycle = expected → s.lastCycleTs < now → CanCommit cfg ts s) := by
  have hstep : eiNext cfg s ⟨t, 0⟩ = some (s.setPc t
      (if now ≤ s.lastCycleTs then .idle else .loadEi cycle now expected s.lastCycleTs)) := by
    unfold eiNext
    rw [hpc]
  by_cases hlate : now ≤ s.lastCycleTs
  · rw [if_pos hlate] at hstep
    exact ⟨Finishes.cons h hstep rfl rfl fun hinv => finishes_of_idle hinv (setPc_pc_self _),
      fun _ hlt => absurd hlate (Nat.not_le_of_lt hlt)⟩
  · rw [if_neg hlate] at hstep
    have hnext := finishes_loadEi ts (h.step hstep) (setPc_pc_self _)
    exact ⟨Finishes.cons h hstep rfl rfl fun _ => hnext.1,
      fun hsame _ => CanCommit.cons hstep rfl (hnext.2 hsame)⟩

private theorem finishes_loadCycle (h : EiInv cfg s) {cycle now : Nat}
    (hpc : s.pc t = .loadCycle cycle now) :
    Finishes cfg ts t s ∧
      (s.lastEiCheckCycle < cycle → s.lastCycleTs < now → CanCommit cfg ts s) := by
  have hstep : eiNext cfg s ⟨t, 0⟩ = some (s.setPc t
      (if cycle ≤ s.lastEiCheckCycle then .idle else .loadTs cycle now s.lastEiCheckCycle)) := by
    unfold eiNext
    rw [hpc]
  by_cases hold : cycle ≤ s.lastEiCheckCycle
  · rw [if_pos hold] at hstep
    exact ⟨Finishes.cons h hstep rfl rfl fun hinv => finishes_of_idle hinv (setPc_pc_self _),
      fun hlt _ => absurd hold (Nat.not_le_of_lt hlt)⟩
  · rw [if_neg hold] at hstep
    have hnext := finishes_loadTs ts (h.step hstep) (setPc_pc_self _)
    exact ⟨Finishes.cons h hstep rfl rfl fun _ => hnext.1,
      fun _ hlt => CanCommit.cons hstep rfl (hnext.2 rfl hlt)⟩

private theorem finishes_timestamp (h : EiInv cfg s) {cycle : Nat}
    (hpc : s.pc t = .timestamp cycle) :
    Finishes cfg ts t s ∧ (s.lastEiCheckCycle < cycle → CanCommit cfg ts s) := by
  have hstep : eiNext cfg s ⟨t, s.clock + 1⟩ = some
      ({ s with clock := s.clock + 1 }.setPc t (.loadCycle cycle (s.clock + 1))) := by
    unfold eiNext
    rw [hpc]
    exact if_pos (Nat.lt_succ_self _)
  have hnext := finishes_loadCycle ts (h.step hstep) (setPc_pc_self _)
  exact ⟨Finishes.cons h hstep rfl rfl fun _ => hnext.1,
    fun hlt => CanCommit.cons hstep rfl (hnext.2 hlt (Nat.lt_succ_of_le h.lastTs_le))⟩

theorem finishes (h : EiInv cfg s) (t : Fin (n + 1)) : Finishes cfg ts t s := by
  cases hpc : s.pc t with
  | idle => exact finishes_of_idle h hpc
  | timestamp cycle => exact (finishes_timestamp ts h hpc).1
  | loadCycle cycle now => exact (finishes_loadCycle ts h hpc).1
  | loadTs cycle now expected => exact (finishes_loadTs ts h hpc).1
  | loadEi cycle now expected lastTs => exact (finishes_loadEi ts h hpc).1
  | cas cycle now expected lastTs ei => exact (finishes_cas ts h hpc).1
  | storeEi now ei => exact finishes_storeEi h hpc
  | storeTs now => exact finishes_storeTs h hpc
  | storeCheckTs now => exact finishes_storeCheckTs h hpc

private theorem canCommit_of_sweeps (hcap : 0 < cfg.batchCap) (k : Nat) :
    ∀ {s : EiState n} {t : Fin (n + 1)} (cycle : Nat), EiInv cfg s → s.pc t = .idle →
      s.lastEiCheckCycle < cycle → 0 < cycle * cfg.batchCap →
      (s.evictBatches + (k + 1)) % 2 ^ 32 = cycle * cfg.batchCap → CanCommit cfg ts s := by
  induction k with
  | zero =>
      intro s t cycle h hpc hlt hpos htarget
      have hstep : eiNext cfg s ⟨t, 0⟩ = some (s.countBatch cfg t) := by
        unfold eiNext
        rw [hpc]
      have hends : (s.countBatch cfg t).pc t = .timestamp cycle := by
        unfold EiState.countBatch
        rw [setPc_pc_self, htarget, Nat.mul_mod_left, Nat.mul_div_cancel _ hcap]
        exact if_pos ⟨rfl, Nat.pos_of_mul_pos_right hpos⟩
      exact CanCommit.cons hstep rfl ((finishes_timestamp ts (h.step hstep) hends).2 hlt)
  | succ k ih =>
      intro s t cycle h hpc hlt hpos htarget
      have hstep : eiNext cfg s ⟨t, 0⟩ = some (s.countBatch cfg t) := by
        unfold eiNext
        rw [hpc]
      apply CanCommit.cons hstep rfl
      obtain ⟨tr, s', hrun, hinv, hend⟩ := finishes ts (h.step hstep) t
      rcases hend with hmore | ⟨hidle, hcommits, hbatches⟩
      · exact ⟨tr, s', hrun, hmore⟩
      · have hsame : s'.lastEiCheckCycle = s.lastEiCheckCycle := by
          rw [hinv.boundary, h.boundary, hcommits]
          rfl
        have hnext : (s'.evictBatches + (k + 1)) % 2 ^ 32 = cycle * cfg.batchCap := by
          rw [hbatches, ← htarget]
          show ((s.evictBatches + 1) % 2 ^ 32 + (k + 1)) % 2 ^ 32 = _
          omega
        obtain ⟨tr', s'', hrun', hmore⟩ := ih cycle hinv hidle (hsame ▸ hlt) hpos hnext
        rw [hcommits] at hmore
        exact ⟨tr ++ tr', s'', run_append.mpr ⟨s', hrun, hrun'⟩, hmore⟩

variable {ts}

/-- **What a step does to the commits**: nothing, unless it is the compare-and-exchange of a thread
that expects the last cycle. -/
theorem eiNext_commits {a : EiAct n} {s' : EiState n} (hstep : eiNext cfg s a = some s') :
    (s'.commits = s.commits ∧ s'.lastEiCheckCycle = s.lastEiCheckCycle ∧
      ∀ cycle now expected lastTs ei, s.pc a.thread = .cas cycle now expected lastTs ei →
        s.lastEiCheckCycle ≠ expected) ∨
      ∃ cycle now lastTs ei,
        s.pc a.thread = .cas cycle now s.lastEiCheckCycle lastTs ei ∧
        s'.lastEiCheckCycle = cycle ∧
        s'.commits = ⟨cycle, now, now - lastTs, cycle - s.lastEiCheckCycle, ei⟩ :: s.commits := by
  unfold eiNext at hstep
  cases hpc : s.pc a.thread with
  | cas cycle now expected lastTs ei =>
      rw [hpc] at hstep
      obtain rfl := Option.some.inj hstep
      unfold EiState.commit
      by_cases hsame : s.lastEiCheckCycle = expected
      · rw [if_pos hsame, ← hsame]
        exact Or.inr ⟨cycle, now, lastTs, ei, rfl, rfl, rfl⟩
      · rw [if_neg hsame]
        refine Or.inl ⟨rfl, rfl, fun cycle' now' expected' lastTs' ei' heq => ?_⟩
        cases heq
        exact hsame
  | timestamp cycle =>
      rw [hpc] at hstep
      dsimp only at hstep
      by_cases htime : s.clock < a.time
      · rw [if_pos htime] at hstep
        exact Option.some.inj hstep ▸ Or.inl ⟨rfl, rfl, nofun⟩
      · rw [if_neg htime] at hstep
        cases hstep
  | _ =>
      rw [hpc] at hstep
      exact Option.some.inj hstep ▸ Or.inl ⟨rfl, rfl, nofun⟩

theorem lastEiCheckCycle_lt {s' : EiState n} {tr : List (EiState n × EiAct n)} (h : EiInv cfg s)
    (hrun : (eiSystem cfg n ts).Run s tr s') :
    EiInv cfg s' ∧ (s'.lastEiCheckCycle = s.lastEiCheckCycle ∧ s'.commits = s.commits ∨
      s.lastEiCheckCycle < s'.lastEiCheckCycle) := by
  induction hrun with
  | nil => exact ⟨h, Or.inl ⟨rfl, rfl⟩⟩
  | @snoc s₁ s₂ _ a hprev hlast ih =>
      obtain ⟨hinv, hbefore⟩ := ih
      have hle : s.lastEiCheckCycle ≤ s₁.lastEiCheckCycle := by
        rcases hbefore with ⟨heq, -⟩ | hlt
        · exact Nat.le_of_eq heq.symm
        · exact Nat.le_of_lt hlt
      refine ⟨hinv.step hlast, ?_⟩
      rcases eiNext_commits hlast with ⟨hcommits, hcycle, -⟩ | ⟨cycle, now, lastTs, ei, hpc, hcycle, -⟩
      · rw [hcommits, hcycle]
        exact hbefore
      · have hplace := hinv.place a.thread
        rw [hpc] at hplace
        rw [hcycle]
        exact Or.inr (Nat.lt_of_le_of_lt hle hplace.2.2.1)

theorem canCommit_iff (hcap : 0 < cfg.batchCap) (h : EiInv cfg s) :
    CanCommit cfg ts s ↔ s.lastEiCheckCycle < maxCycle cfg := by
  constructor
  · rintro ⟨tr, s', hrun, hmore⟩
    obtain ⟨hinv, ⟨-, hcommits⟩ | hlt⟩ := lastEiCheckCycle_lt h hrun
    · rw [hcommits] at hmore
      exact absurd hmore (Nat.lt_irrefl _)
    · exact Nat.lt_of_lt_of_le hlt hinv.cycle_le
  · intro hlt
    -- one thread goes on alone, and then sweeps to the end of the next cycle
    obtain ⟨tr, s', hrun, hinv, hend⟩ := finishes ts h 0
    rcases hend with hmore | ⟨hidle, hcommits, -⟩
    · exact ⟨tr, s', hrun, hmore⟩
    · have hsame : s'.lastEiCheckCycle = s.lastEiCheckCycle := by
        rw [hinv.boundary, h.boundary, hcommits]
      have htarget : (s.lastEiCheckCycle + 1) * cfg.batchCap < 2 ^ 32 := by
        have hmul : (s.lastEiCheckCycle + 1) * cfg.batchCap ≤ 2 ^ 32 - 1 :=
          (Nat.le_div_iff_mul_le hcap).mp hlt
        exact Nat.lt_of_le_of_lt hmul (by decide)
      have hpos : 0 < (s.lastEiCheckCycle + 1) * cfg.batchCap := Nat.mul_pos (Nat.succ_pos _) hcap
      have hbatches := hinv.batches_lt
      obtain ⟨k, hk⟩ : ∃ k, (s'.evictBatches + (k + 1)) % 2 ^ 32 =
          (s.lastEiCheckCycle + 1) * cfg.batchCap := by
        generalize (s.lastEiCheckCycle + 1) * cfg.batchCap = target at htarget hpos
        by_cases hbelow : s'.evictBatches < target
        · exact ⟨target - s'.evictBatches - 1, by omega⟩
        · exact ⟨2 ^ 32 + target - s'.evictBatches - 1, by omega⟩
      obtain ⟨tr', s'', hrun', hmore⟩ := canCommit_of_sweeps ts hcap k
        (s.lastEiCheckCycle + 1) hinv hidle (hsame ▸ Nat.lt_succ_self _) hpos hk
      rw [hcommits] at hmore
      exact ⟨tr ++ tr', s'', run_append.mpr ⟨s', hrun, hrun'⟩, hmore⟩

/-! ## Exact commits -/

/-- **The commits are right**: each was measured from the one before it, over the time and the cycles
between them. -/
def Measured (ts : Nat) : List EiCommit → Prop
  | [] => True
  | commit :: rest => commit.now = boundaryTs ts rest + commit.elapsed ∧
      commit.cycle = boundaryCycle rest + commit.numCycles ∧ Measured ts rest

/-- The commits so far are right, and a later cycle can still be committed. -/
def EiGood (cfg : EiConfig) (ts : Nat) (s : EiState n) : Prop :=
  Measured ts s.commits ∧ CanCommit cfg ts s

/-- A commit that follows the one whose time the thread has read, and is not the last before the
counter of passes wraps. -/
def EiExact (cfg : EiConfig) (ts : Nat) (s : EiState n) (a : EiAct n) : Prop :=
  ∀ cycle now expected lastTs ei, s.pc a.thread = .cas cycle now expected lastTs ei →
    s.lastEiCheckCycle = expected → lastTs = boundaryTs ts s.commits ∧ cycle < maxCycle cfg

theorem eiGood_step (hcap : 0 < cfg.batchCap) (h : EiInv cfg s) (hgood : EiGood cfg ts s)
    {a : EiAct n} {s' : EiState n} (hstep : eiNext cfg s a = some s') :
    EiGood cfg ts s' ↔ EiExact cfg ts s a := by
  have hinv := h.step hstep
  unfold EiGood
  rw [canCommit_iff hcap hinv]
  rcases eiNext_commits hstep with ⟨hcommits, hcycle, hnot⟩ | ⟨cycle, now, lastTs, ei, hpc, hcycle,
    hcommits⟩
  · rw [hcommits, hcycle]
    constructor
    · exact fun _ cycle now expected lastTs ei hpc hsame => absurd hsame (hnot _ _ _ _ _ hpc)
    · exact fun _ => ⟨hgood.1, (canCommit_iff hcap h).mp hgood.2⟩
  · have hplace := h.place a.thread
    rw [hpc] at hplace
    obtain ⟨-, -, hlt, hts, -⟩ := hplace
    rw [hcommits, hcycle]
    have hcycles : cycle = boundaryCycle s.commits + (cycle - s.lastEiCheckCycle) := by
      rw [← h.boundary]
      omega
    constructor
    · rintro ⟨⟨hnow, -, -⟩, hmax⟩ cycle' now' expected' lastTs' ei' hpc' -
      cases hpc.symm.trans hpc'
      have hnow : now = boundaryTs ts s.commits + (now - lastTs) := hnow
      exact ⟨by omega, hmax⟩
    · intro hexact
      obtain ⟨hlast, hmax⟩ := hexact _ _ _ _ _ hpc rfl
      refine ⟨⟨?_, hcycles, hgood.1⟩, hmax⟩
      show now = boundaryTs ts s.commits + (now - lastTs)
      omega

/-! ## Commits that do not overlap -/

def EiPc.storing : EiPc → Option Nat
  | .storeEi now _ | .storeTs now => some now
  | _ => none

def EiPc.expected : EiPc → Option Nat
  | .loadTs _ _ expected | .loadEi _ _ expected _ | .cas _ _ expected _ _ => some expected
  | _ => none

def EiPc.lastTs : EiPc → Option Nat
  | .loadEi _ _ _ lastTs | .cas _ _ _ lastTs _ => some lastTs
  | _ => none

/-- No thread reads `last_cycle_ts` while a commit has not stored its own, and the last cycle before
the wrap is not committed. -/
def NoOverlap (cfg : EiConfig) (s : EiState n) (a : EiAct n) : Prop :=
  (∀ cycle now expected, s.pc a.thread = .loadTs cycle now expected →
    ∀ t, (s.pc t).storing = none) ∧
  ∀ cycle now expected lastTs ei, s.pc a.thread = .cas cycle now expected lastTs ei →
    cycle < maxCycle cfg

/-- What holds as long as commits do not overlap: at most one is not stored, and who expects the
last cycle and has read the time has read that of its commit. -/
structure Settled (ts : Nat) (s : EiState n) : Prop where
  stored : (∀ t, (s.pc t).storing = none) → s.lastCycleTs = boundaryTs ts s.commits
  storing : ∀ t now, (s.pc t).storing = some now → now = boundaryTs ts s.commits
  alone : ∀ t u, (s.pc t).storing ≠ none → (s.pc u).storing ≠ none → t = u
  expected_le : ∀ t expected, (s.pc t).expected = some expected → expected ≤ s.lastEiCheckCycle
  read : ∀ t lastTs, (s.pc t).expected = some s.lastEiCheckCycle → (s.pc t).lastTs = some lastTs →
    lastTs = boundaryTs ts s.commits ∧ ∀ u, (s.pc u).storing = none

theorem settled_init : Settled ts (EiState.init ts : EiState n) where
  stored := fun _ => rfl
  storing := nofun
  alone := fun _ _ h => absurd rfl h
  expected_le := nofun
  read := nofun

theorem Settled.setPc (h : Settled ts s) {pc : EiPc} (hstoring : pc.storing = (s.pc t).storing)
    (hexpected : ∀ e, pc.expected = some e → e ≤ s.lastEiCheckCycle)
    (hread : ∀ lastTs, pc.expected = some s.lastEiCheckCycle → pc.lastTs = some lastTs →
      lastTs = boundaryTs ts s.commits ∧ ∀ u, (s.pc u).storing = none) :
    Settled ts (s.setPc t pc) := by
  have hsame : ∀ u, (Function.update s.pc t pc u).storing = (s.pc u).storing := by
    intro u
    by_cases hu : u = t
    · rw [hu, Function.update_self, hstoring]
    · rw [Function.update_of_ne hu]
  obtain ⟨hstored, hnow, halone, hle, hlast⟩ := h
  unfold EiState.setPc
  refine ⟨?_, ?_, ?_, ?_, ?_⟩
  · simpa only [hsame] using hstored
  · simpa only [hsame] using hnow
  · simpa only [hsame] using halone
  · grind [Function.update_apply]
  · simp only [hsame]
    grind [Function.update_apply]

theorem Settled.commit (h : Settled ts s) {cycle now expected lastTs ei : Nat}
    (hpc : s.pc t = .cas cycle now expected lastTs ei) (hlt : expected < cycle) :
    Settled ts (s.commit t cycle now expected lastTs ei) := by
  unfold EiState.commit
  by_cases hsame : s.lastEiCheckCycle = expected
  · rw [if_pos hsame]
    -- nobody else is storing, and nobody expects the new cycle yet
    obtain ⟨-, hnone⟩ := h.read t lastTs (by rw [hpc, hsame]; rfl) (by rw [hpc]; rfl)
    have hle : ∀ u e, (s.pc u).expected = some e → e < cycle := fun u e he =>
      Nat.lt_of_le_of_lt (h.expected_le u e he) (hsame ▸ hlt)
    unfold EiState.setPc
    refine ⟨?_, ?_, ?_, ?_, ?_⟩
    · intro hall
      have hself : (Function.update s.pc t (.storeEi now ei) t).storing = none := hall t
      rw [Function.update_self] at hself
      cases hself
    · grind [Function.update_apply, EiPc.storing, boundaryTs]
    · grind [Function.update_apply]
    · grind [Function.update_apply, EiPc.expected]
    · grind [Function.update_apply, EiPc.expected]
  · rw [if_neg hsame]
    exact h.setPc (by rw [hpc]; rfl) nofun nofun

theorem Settled.step (h : Settled ts s) (hinv : EiInv cfg s) {a : EiAct n} {s' : EiState n}
    (hguard : NoOverlap cfg s a) (hstep : eiNext cfg s a = some s') : Settled ts s' := by
  have hplace := hinv.place a.thread
  unfold eiNext at hstep
  cases hpc : s.pc a.thread with
  | idle =>
      rw [hpc] at hstep
      have hcounted : Settled ts { s with evictBatches := (s.evictBatches + 1) % 2 ^ 32 } :=
        ⟨h.stored, h.storing, h.alone, h.expected_le, h.read⟩
      refine Option.some.inj hstep ▸ hcounted.setPc ?_ ?_ ?_
      · show _ = (s.pc a.thread).storing
        rw [hpc]
        split_ifs <;> rfl
      · split_ifs <;> nofun
      · split_ifs <;> nofun
  | timestamp cycle =>
      rw [hpc] at hstep
      dsimp only at hstep
      by_cases htime : s.clock < a.time
      · rw [if_pos htime] at hstep
        have hlater : Settled ts { s with clock := a.time } :=
          ⟨h.stored, h.storing, h.alone, h.expected_le, h.read⟩
        refine Option.some.inj hstep ▸ hlater.setPc ?_ nofun nofun
        show _ = (s.pc a.thread).storing
        rw [hpc]
        rfl
      · rw [if_neg htime] at hstep
        cases hstep
  | loadCycle cycle now =>
      rw [hpc] at hstep
      dsimp only at hstep
      by_cases hle : cycle ≤ s.lastEiCheckCycle
      · rw [if_pos hle] at hstep
        exact Option.some.inj hstep ▸ h.setPc (by rw [hpc]; rfl) nofun nofun
      · rw [if_neg hle] at hstep
        refine Option.some.inj hstep ▸ h.setPc (by rw [hpc]; rfl) ?_ nofun
        intro e he
        exact Nat.le_of_eq (Option.some.inj he).symm
  | loadTs cycle now expected =>
      rw [hpc] at hstep
      dsimp only at hstep
      have hnone := hguard.1 _ _ _ hpc
      by_cases hle : now ≤ s.lastCycleTs
      · rw [if_pos hle] at hstep
        exact Option.some.inj hstep ▸ h.setPc (by rw [hpc]; rfl) nofun nofun
      · rw [if_neg hle] at hstep
        -- nobody is storing: the word has the time of the last commit
        refine Option.some.inj hstep ▸ h.setPc (by rw [hpc]; rfl) ?_ ?_
        · intro e he
          exact h.expected_le a.thread e (by rw [hpc]; exact he)
        · intro lastTs _ hlast
          exact ⟨(Option.some.inj hlast).symm.trans (h.stored hnone), hnone⟩
  | loadEi cycle now expected lastTs =>
      rw [hpc] at hstep
      refine Option.some.inj hstep ▸ h.setPc (by rw [hpc]; rfl) ?_ ?_
      · intro e he
        exact h.expected_le a.thread e (by rw [hpc]; exact he)
      · intro lastTs' he hlast
        exact h.read a.thread lastTs' (by rw [hpc]; exact he) (by rw [hpc]; exact hlast)
  | cas cycle now expected lastTs ei =>
      rw [hpc] at hstep hplace
      exact Option.some.inj hstep ▸ h.commit hpc hplace.2.2.1
  | storeEi now ei =>
      rw [hpc] at hstep
      have hstored : Settled ts { s with evictIntervalThre := ei } :=
        ⟨h.stored, h.storing, h.alone, h.expected_le, h.read⟩
      refine Option.some.inj hstep ▸ hstored.setPc ?_ nofun nofun
      show _ = (s.pc a.thread).storing
      rw [hpc]
      rfl
  | storeTs now =>
      rw [hpc] at hstep
      have hself : (s.pc a.thread).storing = some now := by
        rw [hpc]
        rfl
      have hnow := h.storing a.thread now hself
      have halone := h.alone a.thread
      obtain ⟨-, hstoring, halone', hle, hread⟩ := h
      obtain rfl := Option.some.inj hstep
      unfold EiState.setPc
      refine ⟨fun _ => hnow, ?_, ?_, ?_, ?_⟩
      · grind [Function.update_apply, EiPc.storing]
      · grind [Function.update_apply, EiPc.storing]
      · grind [Function.update_apply, EiPc.expected]
      · grind [Function.update_apply, EiPc.expected, EiPc.storing]
  | storeCheckTs now =>
      rw [hpc] at hstep
      have hstored : Settled ts { s with lastEiCheckTs := now } :=
        ⟨h.stored, h.storing, h.alone, h.expected_le, h.read⟩
      refine Option.some.inj hstep ▸ hstored.setPc ?_ nofun nofun
      show _ = (s.pc a.thread).storing
      rw [hpc]
      rfl

theorem eiExact_of_noOverlap (h : Settled ts s) {a : EiAct n} (hguard : NoOverlap cfg s a) :
    EiExact cfg ts s a := by
  intro cycle now expected lastTs ei hpc hsame
  refine ⟨(h.read a.thread lastTs ?_ ?_).1, hguard.2 _ _ _ _ _ hpc⟩
  · rw [hpc, hsame]
    rfl
  · rw [hpc]
    rfl

/-! ## Every run -/

/-- **The eviction interval.**  In every run the committed cycles increase, so each is committed
once, and the interval of a commit is computed from its time and its number of cycles.  They are
those since the commit before it, and a later cycle can still be committed, in every state of the run
exactly if all commits are exact; and they are if no commits overlap. -/
theorem evict_interval_iff (hcap : 0 < cfg.batchCap) (hword : cfg.batchCap < 2 ^ 32)
    {tr : List (EiState n × EiAct n)} (hrun : (eiSystem cfg n ts).Run (EiState.init ts) tr s) :
    (s.commits.map (·.cycle)).Pairwise (· > ·) ∧
      s.lastEiCheckCycle = boundaryCycle s.commits ∧
      (∀ c ∈ s.commits, ∃ old, c.newEi = newEi cfg old (c.elapsed / c.numCycles)) ∧
      (Visits (EiGood cfg ts) tr s ↔ Guarded (EiExact cfg ts) tr) ∧
      (Guarded (NoOverlap cfg) tr → Guarded (EiExact cfg ts) tr) := by
  have hinv : EiInv cfg s := (lastEiCheckCycle_lt (eiInv_init cfg) hrun).1
  have hfirst : EiGood cfg ts (EiState.init ts : EiState n) :=
    ⟨trivial, (canCommit_iff hcap (eiInv_init cfg)).mpr
      (Nat.div_pos (Nat.le_pred_of_lt hword) hcap)⟩
  refine ⟨hinv.increasing, hinv.boundary, hinv.computed, ?_, ?_⟩
  · apply hrun.visits_iff_guarded_of_invariant (I := fun s => EiInv cfg s ∧ EiGood cfg ts s)
      ⟨eiInv_init cfg, hfirst⟩ fun s h => h.2
    · rintro s a s' ⟨h, hgood⟩ hexact hstep
      exact ⟨h.step hstep, (eiGood_step hcap h hgood hstep).mpr hexact⟩
    · rintro s a s' ⟨h, hgood⟩ hexact hstep hgood'
      exact hexact ((eiGood_step hcap h hgood hstep).mp hgood')
  · intro hguarded p hp
    have hvisits := hrun.invariant (P := fun s => EiInv cfg s ∧ Settled ts s)
      ⟨eiInv_init cfg, settled_init⟩ (fun s a s' h hguard hstep =>
        ⟨h.1.step hstep, h.2.step h.1 hguard hstep⟩) hguarded
    exact eiExact_of_noOverlap (hvisits.1 p hp).2 (hguarded p hp)

private def oneBatch : EiConfig := ⟨1, 5, fun avgSweepTime _ => avgSweepTime⟩

/-- **Two overlapping commits.**  The first thread has committed its cycle at time 10 and not stored
the time; the second one commits the next cycle at time 20 and measures from 0. -/
theorem evict_interval_overlaps :
    ∃ tr s, (eiSystem oneBatch 1 0).Run (EiState.init 0) tr s ∧
      s.commits = [⟨2, 20, 20, 1, 5⟩, ⟨1, 10, 10, 1, 5⟩] ∧ ¬ Visits (EiGood oneBatch 0) tr s := by
  obtain ⟨tr, s, hrun, hend⟩ := exists_run (· = EiState.init 0) (eiNext (n := 1) oneBatch)
    (EiState.init 0)
    [⟨0, 0⟩, ⟨0, 10⟩, ⟨0, 0⟩, ⟨0, 0⟩, ⟨0, 0⟩, ⟨0, 0⟩,
      ⟨1, 0⟩, ⟨1, 20⟩, ⟨1, 0⟩, ⟨1, 0⟩, ⟨1, 0⟩, ⟨1, 0⟩]
    (P := fun _ s => decide (s.commits = [⟨2, 20, 20, 1, 5⟩, ⟨1, 10, 10, 1, 5⟩]))
    (by decide +kernel)
  have hcommits := of_decide_eq_true hend
  refine ⟨tr, s, hrun, hcommits, fun hvisits => ?_⟩
  have hmeasured := hvisits.last.1
  rw [hcommits] at hmeasured
  exact absurd hmeasured.1 (by decide)

/-- The first thread alone commits its cycle, exactly. -/
theorem evict_interval_one :
    ∃ tr s, (eiSystem oneBatch 1 0).Run (EiState.init 0) tr s ∧
      s.commits = [⟨1, 10, 10, 1, 5⟩] ∧ Visits (EiGood oneBatch 0) tr s := by
  obtain ⟨tr, s, hrun, hend⟩ := exists_run (· = EiState.init 0) (eiNext (n := 1) oneBatch)
    (EiState.init 0)
    [⟨0, 0⟩, ⟨0, 10⟩, ⟨0, 0⟩, ⟨0, 0⟩, ⟨0, 0⟩, ⟨0, 0⟩]
    (P := fun tr s => decide (s.commits = [⟨1, 10, 10, 1, 5⟩] ∧
      ∀ p ∈ tr, p.1.lastCycleTs = 0 ∧ p.1.commits = [] ∧ ∀ t, (p.1.pc t).storing = none ∧
        ((p.1.pc t).lastTs = none ∨ p.1.pc t = .loadEi 1 10 0 0 ∨ p.1.pc t = .cas 1 10 0 0 5)))
    (by decide +kernel)
  obtain ⟨hcommits, hsteps⟩ := of_decide_eq_true hend
  refine ⟨tr, s, hrun, hcommits, ?_⟩
  refine (evict_interval_iff (by decide) (by decide) hrun).2.2.2.1.mpr ?_
  intro p hp cycle now expected lastTs ei hpc _
  obtain ⟨-, hnone, hplaces⟩ := hsteps p hp
  obtain ⟨-, hlast⟩ := hplaces p.2.thread
  rw [hpc] at hlast
  rcases hlast with h | h | h
  · cases h
  · cases h
  · cases h
    rw [hnone]
    exact ⟨rfl, by decide⟩

end Cache
end TreePass
