import Mathlib.Data.List.Basic
import Mathlib.Data.List.Nodup
import Mathlib.Logic.Function.Basic

/-!
# Loops around a compare-and-exchange

Calls change a shared word, each in a loop: load the word, compute what to store, exchange if the
word is still the one loaded, else go on with the word found.  Where there is nothing to store, a
call returns.

* `Shared.step` is a step of one call; `order` records the calls as they take effect, which is at
  the exchange, or at the load of a word they leave as it is.
* `Linear`: the word is as if the calls had run one after the other in this order.
-/

namespace TreePass
namespace Lib

/-- Where a call is. -/
inductive LoopPc (W : Type*) where
  | idle
  | loaded (old : W)
  | returned

structure Shared (T W : Type*) where
  word : W
  pc : T → LoopPc W
  order : List T

variable {T W : Type*}

/-- The call takes effect and does not change this any more. -/
def LoopPc.Settled (next : W → Option W) : LoopPc W → Prop
  | .idle => False
  | .loaded old => next old = none
  | .returned => True

namespace Shared

def start (word : W) : Shared T W := ⟨word, fun _ => .idle, []⟩

/-- What a call does when it runs alone. -/
def alone (next : T → W → Option W) (word : W) (t : T) : W := (next t word).getD word

variable [DecidableEq T]

def load (next : T → W → Option W) (t : T) (s : Shared T W) : Shared T W where
  word := s.word
  pc := Function.update s.pc t (.loaded s.word)
  order := if (next t s.word).isNone then s.order ++ [t] else s.order

variable [DecidableEq W]

/-- One step of call `t`, which stores `next t old` over `old`. -/
def step (next : T → W → Option W) (s : Shared T W) (t : T) : Shared T W :=
  match s.pc t with
  | .idle => s.load next t
  | .loaded old =>
      match next t old with
      | none => { s with pc := Function.update s.pc t .returned }
      | some new =>
          if s.word = old then ⟨new, Function.update s.pc t .returned, s.order ++ [t]⟩
          -- Another call has changed the word.
          else s.load next t
  | .returned => s

def run (next : T → W → Option W) (s : Shared T W) (schedule : List T) : Shared T W :=
  schedule.foldl (step next) s

end Shared

open Shared

/-- **The calls behave as if one ran after the other**, each once. -/
structure Linear (next : T → W → Option W) (word : W) (s : Shared T W) : Prop where
  nodup : s.order.Nodup
  mem_iff : ∀ t, t ∈ s.order ↔ (s.pc t).Settled (next t)
  word_eq : s.word = s.order.foldl (alone next) word

section Steps

variable [DecidableEq T] {next : T → W → Option W} {word : W} {s : Shared T W}

omit [DecidableEq T] in
theorem linear_start : Linear next word (start word) :=
  ⟨List.nodup_nil, fun _ => iff_of_false List.not_mem_nil id, rfl⟩

theorem Linear.settle (h : Linear next word s) {t : T} (hopen : ¬ (s.pc t).Settled (next t))
    (pc : LoopPc W) (hpc : pc.Settled (next t)) :
    Linear next word ⟨alone next s.word t, Function.update s.pc t pc, s.order ++ [t]⟩ where
  nodup := by
    refine List.nodup_append.mpr ⟨h.nodup, List.nodup_singleton t, fun u hu v hv heq => ?_⟩
    obtain rfl := List.mem_singleton.mp hv
    exact hopen ((h.mem_iff _).mp (heq ▸ hu))
  mem_iff u := by
    by_cases hu : u = t
    · subst hu
      simpa using hpc
    · simp [hu, h.mem_iff u]
  word_eq := by rw [List.foldl_concat, ← h.word_eq]

theorem Linear.move (h : Linear next word s) {t : T} (pc : LoopPc W)
    (hpc : pc.Settled (next t) ↔ (s.pc t).Settled (next t)) :
    Linear next word { s with pc := Function.update s.pc t pc } where
  nodup := h.nodup
  mem_iff u := by
    by_cases hu : u = t
    · subst hu
      simpa [hpc] using h.mem_iff u
    · simpa [hu] using h.mem_iff u
  word_eq := h.word_eq

theorem Linear.load (h : Linear next word s) {t : T} (hopen : ¬ (s.pc t).Settled (next t)) :
    Linear next word (s.load next t) := by
  cases hnext : next t s.word with
  | none =>
      have hsettled := h.settle hopen (.loaded s.word) hnext
      rw [alone, hnext] at hsettled
      simpa [Shared.load, hnext] using hsettled
  | some new =>
      have hmoved := h.move (.loaded s.word)
        (iff_of_false (by simp [LoopPc.Settled, hnext]) hopen)
      simpa [Shared.load, hnext] using hmoved

variable [DecidableEq W]

theorem Linear.step (h : Linear next word s) (t : T) : Linear next word (s.step next t) := by
  cases hpc : s.pc t with
  | idle =>
      simp only [Shared.step, hpc]
      exact h.load (by rw [hpc]; exact id)
  | returned =>
      simp only [Shared.step, hpc]
      exact h
  | loaded old =>
      cases hnext : next t old with
      | none =>
          simp only [Shared.step, hpc, hnext]
          exact h.move .returned (iff_of_true True.intro (by rw [hpc]; exact hnext))
      | some new =>
          have hopen : ¬ (s.pc t).Settled (next t) := by
            rw [hpc]
            exact fun hnone => Option.some_ne_none new (hnext.symm.trans hnone)
          simp only [Shared.step, hpc, hnext]
          by_cases hword : s.word = old
          · have hsettled := h.settle hopen .returned True.intro
            rw [alone, hword, hnext, Option.getD_some] at hsettled
            rwa [if_pos hword]
          · rw [if_neg hword]
            exact h.load hopen

theorem Linear.run (h : Linear next word s) (schedule : List T) :
    Linear next word (s.run next schedule) := by
  induction schedule generalizing s with
  | nil => exact h
  | cons t schedule ih => exact ih (h.step t)

theorem order_step (s : Shared T W) (t : T) : s.order <+: (s.step next t).order := by
  have hload : s.order <+: (s.load next t).order := by
    unfold Shared.load
    split
    · exact List.prefix_append ..
    · exact List.prefix_rfl
  unfold Shared.step
  split
  · exact hload
  · split
    · exact List.prefix_rfl
    · split
      · exact List.prefix_append ..
      · exact hload
  · exact List.prefix_rfl

theorem order_run (s : Shared T W) (schedule : List T) :
    s.order <+: (s.run next schedule).order := by
  induction schedule generalizing s with
  | nil => exact List.prefix_rfl
  | cons t schedule ih => exact (order_step s t).trans (ih _)

theorem run_twice (s : Shared T W) (t : T) : (s.run next [t, t]).pc t = .returned := by
  have hloaded : ((s.load next t).step next t).pc t = .returned := by
    cases hnext : next t s.word <;> simp [Shared.step, Shared.load, hnext]
  change ((s.step next t).step next t).pc t = .returned
  cases hpc : s.pc t with
  | idle => simpa only [Shared.step, hpc] using hloaded
  | returned => simp [Shared.step, hpc]
  | loaded old =>
      cases hnext : next t old with
      | none => simp [Shared.step, hpc, hnext]
      | some new =>
          by_cases hword : s.word = old
          · simp [Shared.step, hpc, hnext, hword]
          · rw [show s.step next t = s.load next t by simp [Shared.step, hpc, hnext, hword]]
            exact hloaded

end Steps

end Lib
end TreePass
