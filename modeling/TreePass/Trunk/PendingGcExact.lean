import TreePass.Lib.CountedGraph
import TreePass.Trunk.PendingGc

/-!
# What a pending collection frees

The nodes at the front of the queue that no reader uses are freed, and with them every node that
loses its last reference.  If a reader uses one of those, the thread waits for the lock that it holds.

* `GcInv` is the invariant: the counts are right, and the nodes without references are queued.
* `Frees` is what an operation does to the nodes that are alive.
* `nodeDecRef_spec` is the recursion; `pendingLoop_spec` is the loop.
* `performPendingGcs_exact_iff` is the condition.
-/

namespace TreePass
namespace Trunk

section

variable {K : Type} {nodes : NodeStore K} {inUse : Nat → Bool} {ext : Nat → Nat} {all : Finset Nat}
  {root : Nat → Prop} {rank : Nat → Nat}

/-! ## The invariant -/

/-- The references to a node, without the one that keeps the extent. -/
def GcState.counts (s : GcState) (a : Nat) : Nat := s.refs a - alNoRefs

/-- What holds of the nodes that are alive, while some references are still to be given back. -/
structure GcInv (nodes : NodeStore K) (ext : Nat → Nat) (all : Finset Nat) (root : Nat → Prop)
    (alive : Finset Nat) (debts : List Nat) (s : GcState) : Prop where
  balanced : Lib.Balanced nodes.children ext s.counts alive debts
  pos : ∀ a ∈ alive, alNoRefs ≤ s.refs a
  sub : alive ⊆ all
  gone : ∀ a ∈ all, a ∉ alive → Lib.Doomed nodes.children ext all root a
  /-- A reference that is to be given back was one of a node. -/
  debtor : ∀ a ∈ debts, ∃ p ∈ all, a ∈ nodes.children p
  queued_iff : ∀ a ∈ alive, s.refs a = alNoRefs ↔ a ∈ s.queue
  queue_sub : ∀ a ∈ s.queue, a ∈ alive
  queue_nodup : s.queue.Nodup
  /-- The nodes of the queue have no parents. -/
  orphans : ∀ a ∈ s.queue, ∀ p ∈ all, a ∉ nodes.children p

/-- What an operation does that leaves some of the nodes alive. -/
structure Frees (nodes : NodeStore K) (inUse : Nat → Bool) (alive alive' : Finset Nat)
    (s s' : GcState) : Prop where
  sub : alive' ⊆ alive
  queue_eq : s'.queue = s.queue
  locked_eq : s'.locked = s.locked
  frame : ∀ a ∉ alive, s'.refs a = s.refs a
  gone : ∀ a ∈ alive, a ∉ alive' → s'.refs a = 0 ∧ inUse a = false
  /-- Every node that is gone has been freed once, and has given back what it held. -/
  freed : ∃ l : List Nat, l.Nodup ∧ (∀ a, a ∈ l ↔ a ∈ alive ∧ a ∉ alive') ∧
    s'.freed = s.freed ++ l ∧ s'.dropped = s.dropped ++ l.flatMap nodes.heldRefs

theorem Frees.refl (nodes : NodeStore K) (inUse : Nat → Bool) (alive : Finset Nat) (s : GcState) :
    Frees nodes inUse alive alive s s where
  sub := Finset.Subset.refl _
  queue_eq := rfl
  locked_eq := rfl
  frame := fun _ _ => rfl
  gone := fun _ hin hnot => absurd hin hnot
  freed := ⟨[], List.nodup_nil, fun a => by
    simp only [List.not_mem_nil, false_iff, not_and, not_not]
    exact fun h => h, (List.append_nil _).symm, (List.append_nil _).symm⟩

theorem Frees.trans {alive alive' alive'' : Finset Nat} {s s' s'' : GcState}
    (h : Frees nodes inUse alive alive' s s') (h' : Frees nodes inUse alive' alive'' s' s'') :
    Frees nodes inUse alive alive'' s s'' := by
  obtain ⟨l, hnodup, hmem, hfreed, hdropped⟩ := h.freed
  obtain ⟨l', hnodup', hmem', hfreed', hdropped'⟩ := h'.freed
  constructor
  · exact h'.sub.trans h.sub
  · exact h'.queue_eq.trans h.queue_eq
  · exact h'.locked_eq.trans h.locked_eq
  · intro a ha
    exact (h'.frame a fun hin => ha (h.sub hin)).trans (h.frame a ha)
  · intro a ha hnot
    by_cases hmid : a ∈ alive'
    · exact h'.gone a hmid hnot
    · obtain ⟨hzero, huse⟩ := h.gone a ha hmid
      exact ⟨(h'.frame a hmid).trans hzero, huse⟩
  · refine ⟨l ++ l', ?_, fun a => ?_, ?_, ?_⟩
    · refine List.nodup_append'.mpr ⟨hnodup, hnodup', fun a hl hl' => ?_⟩
      exact ((hmem a).mp hl).2 ((hmem' a).mp hl').1
    · rw [List.mem_append, hmem, hmem']
      constructor
      · rintro (⟨hin, hnot⟩ | ⟨hin, hnot⟩)
        · exact ⟨hin, fun hend => hnot (h'.sub hend)⟩
        · exact ⟨h.sub hin, hnot⟩
      · rintro ⟨hin, hnot⟩
        by_cases hmid : a ∈ alive'
        · exact Or.inr ⟨hmid, hnot⟩
        · exact Or.inl ⟨hin, hmid⟩
    · rw [hfreed', hfreed, List.append_assoc]
    · rw [hdropped', hdropped, List.flatMap_append, List.append_assoc]

def Stuck (nodes : NodeStore K) (inUse : Nat → Bool) (ext : Nat → Nat) (all : Finset Nat)
    (root : Nat → Prop) : Prop :=
  ∃ a, Lib.Doomed nodes.children ext all root a ∧ inUse a = true

/-- What an operation comes to: it frees nodes, or waits because one of them is in use. -/
def Outcome (nodes : NodeStore K) (inUse : Nat → Bool) (ext : Nat → Nat) (all : Finset Nat)
    (root : Nat → Prop) (alive : Finset Nat) (debts : List Nat) (s : GcState) (r : GcResult) : Prop :=
  (r = .waits ∧ Stuck nodes inUse ext all root) ∨
    ∃ alive' s', r = .ok s' ∧ GcInv nodes ext all root alive' debts s' ∧
      Frees nodes inUse alive alive' s s'

theorem Outcome.bind {alive : Finset Nat} {debts debts' : List Nat} {s : GcState} {r : GcResult}
    {next : GcState → GcResult} (h : Outcome nodes inUse ext all root alive debts s r)
    (hnext : ∀ alive' s', GcInv nodes ext all root alive' debts s' →
      Frees nodes inUse alive alive' s s' →
      Outcome nodes inUse ext all root alive' debts' s' (next s')) :
    Outcome nodes inUse ext all root alive debts' s (r.bind next) := by
  rcases h with ⟨rfl, hstuck⟩ | ⟨alive', s', rfl, hinv, hfrees⟩
  · exact Or.inl ⟨rfl, hstuck⟩
  · rcases hnext alive' s' hinv hfrees with ⟨hwaits, hstuck⟩ | ⟨alive'', s'', hok, hinv', hfrees'⟩
    · exact Or.inl ⟨hwaits, hstuck⟩
    · exact Or.inr ⟨alive'', s'', hok, hinv', hfrees.trans hfrees'⟩

/-! ## Freeing a node -/

/-- What is asked of an operation that gives back a reference. -/
def GivesBack (nodes : NodeStore K) (inUse : Nat → Bool) (ext : Nat → Nat) (all : Finset Nat)
    (root : Nat → Prop) (op : Nat → GcState → GcResult) (a : Nat) : Prop :=
  ∀ (alive : Finset Nat) (debts : List Nat) (s : GcState), s.locked = true →
    GcInv nodes ext all root alive (a :: debts) s →
    Outcome nodes inUse ext all root alive debts s (op a s)

theorem gcEach_spec {op : Nat → GcState → GcResult} (addrs : List Nat)
    (hop : ∀ a ∈ addrs, GivesBack nodes inUse ext all root op a) {alive : Finset Nat}
    {debts : List Nat} {s : GcState} (hlocked : s.locked = true)
    (h : GcInv nodes ext all root alive (addrs ++ debts) s) :
    Outcome nodes inUse ext all root alive debts s (gcEach op addrs s) := by
  induction addrs generalizing alive s with
  | nil => exact Or.inr ⟨alive, s, rfl, h, Frees.refl ..⟩
  | cons a addrs ih =>
      refine Outcome.bind (hop a List.mem_cons_self alive (addrs ++ debts) s hlocked h)
        fun alive' s' hinv hfrees => ?_
      exact ih (fun b hb => hop b (List.mem_cons_of_mem _ hb)) (hfrees.locked_eq.trans hlocked) hinv

theorem GcInv.of_eq {alive : Finset Nat} {debts : List Nat} {s s' : GcState}
    (h : GcInv nodes ext all root alive debts s) (hrefs : ∀ a ∈ alive, s'.refs a = s.refs a)
    (hqueue : s'.queue = s.queue) : GcInv nodes ext all root alive debts s' where
  balanced := h.balanced.congr fun a ha => by rw [GcState.counts, GcState.counts, hrefs a ha]
  pos := fun a ha => (hrefs a ha).symm ▸ h.pos a ha
  sub := h.sub
  gone := h.gone
  debtor := h.debtor
  queued_iff := fun a ha => by rw [hrefs a ha, hqueue, h.queued_iff a ha]
  queue_sub := fun a ha => h.queue_sub a (hqueue ▸ ha)
  queue_nodup := hqueue.symm ▸ h.queue_nodup
  orphans := fun a ha => h.orphans a (hqueue ▸ ha)

theorem gcWith_spec {op : Nat → GcState → GcResult} {a : Nat} {alive : Finset Nat}
    (hop : ∀ c ∈ nodes.children a, GivesBack nodes inUse ext all root op c) {debts : List Nat}
    {s : GcState} (hlocked : s.locked = true) (ha : a ∈ alive) (hrefs : s.refs a = alNoRefs)
    (huse : inUse a = false)
    (h : GcInv nodes ext all root (alive.erase a) (nodes.children a ++ debts) s) :
    Outcome nodes inUse ext all root alive debts s (gcWith nodes op a s) := by
  rcases gcEach_spec _ hop hlocked h with ⟨hwaits, hstuck⟩ | ⟨alive', s', hok, hinv, hfrees⟩
  · refine Or.inl ⟨?_, hstuck⟩
    rw [gcWith, hwaits]
    rfl
  · have hne : a ∉ alive.erase a := Finset.notMem_erase a alive
    have hrefs' : s'.refs a = alNoRefs := (hfrees.frame a hne).trans hrefs
    have hdec : allocatorDecRef a { s' with dropped := s'.dropped ++ nodes.heldRefs a } =
        .ok { s' with
          dropped := s'.dropped ++ nodes.heldRefs a,
          refs := Function.update s'.refs a (s'.refs a - 1) } := by
      refine if_neg ?_
      rw [hrefs']
      decide
    have hnot : a ∉ alive' := fun hin => hne (hfrees.sub hin)
    have hothers : ∀ b, b ≠ a → Function.update s'.refs a (s'.refs a - 1) b = s'.refs b :=
      fun b hb => Function.update_of_ne hb ..
    obtain ⟨l, hnodup, hmem, hfreed, hdropped⟩ := hfrees.freed
    refine Or.inr ⟨alive', ⟨Function.update s'.refs a (s'.refs a - 1), s'.queue, s'.locked,
      s'.freed ++ [a], s'.dropped ++ nodes.heldRefs a⟩, ?_, ?_, ?_⟩
    · rw [gcWith, hok]
      show (allocatorDecRef a { s' with dropped := _ }).bind _ = _
      rw [hdec]
      rfl
    · exact hinv.of_eq (fun b hb => hothers b fun heq => hnot (heq ▸ hb)) rfl
    · constructor
      · exact hfrees.sub.trans (Finset.erase_subset a alive)
      · exact hfrees.queue_eq
      · exact hfrees.locked_eq
      · intro b hb
        have hba : b ≠ a := fun heq => hb (heq ▸ ha)
        exact (hothers b hba).trans (hfrees.frame b fun hin => hb (Finset.mem_of_mem_erase hin))
      · intro b hb hgone
        by_cases hba : b = a
        · subst hba
          refine ⟨?_, huse⟩
          show Function.update s'.refs b (s'.refs b - 1) b = 0
          rw [Function.update_self, hrefs']
          rfl
        · obtain ⟨hzero, hfree⟩ := hfrees.gone b (Finset.mem_erase.mpr ⟨hba, hb⟩) hgone
          exact ⟨(hothers b hba).trans hzero, hfree⟩
      · refine ⟨l ++ [a], ?_, fun b => ?_, ?_, ?_⟩
        · refine List.nodup_append'.mpr ⟨hnodup, List.nodup_singleton a, fun b hl hb => ?_⟩
          obtain rfl := List.mem_singleton.mp hb
          exact hne ((hmem b).mp hl).1
        · rw [List.mem_append, hmem, List.mem_singleton, Finset.mem_erase]
          constructor
          · rintro (⟨⟨-, hin⟩, hnotIn⟩ | rfl)
            · exact ⟨hin, hnotIn⟩
            · exact ⟨ha, hnot⟩
          · rintro ⟨hin, hnotIn⟩
            by_cases hba : b = a
            · exact Or.inr hba
            · exact Or.inl ⟨⟨hba, hin⟩, hnotIn⟩
        · show s'.freed ++ [a] = _
          rw [hfreed, List.append_assoc]
        · show s'.dropped ++ nodes.heldRefs a = _
          rw [hdropped, List.flatMap_append, List.flatMap_singleton, List.append_assoc]

theorem GcInv.erase {alive : Finset Nat} {debts : List Nat} {s : GcState} {a : Nat}
    (hbalanced : Lib.Balanced nodes.children ext s.counts (alive.erase a) (nodes.children a ++ debts))
    (ha : a ∈ alive) (hsub : alive ⊆ all) (hpos : ∀ b ∈ alive, b ≠ a → alNoRefs ≤ s.refs b)
    (hgone : ∀ b ∈ all, b ∉ alive → Lib.Doomed nodes.children ext all root b)
    (hdoomed : Lib.Doomed nodes.children ext all root a)
    (hdebtor : ∀ b ∈ debts, ∃ p ∈ all, b ∈ nodes.children p)
    (hqueued : ∀ b ∈ alive, b ≠ a → (s.refs b = alNoRefs ↔ b ∈ s.queue))
    (hqueue : ∀ b ∈ s.queue, b ∈ alive ∧ b ≠ a) (hnodup : s.queue.Nodup)
    (horphans : ∀ b ∈ s.queue, ∀ p ∈ all, b ∉ nodes.children p) :
    GcInv nodes ext all root (alive.erase a) (nodes.children a ++ debts) s where
  balanced := hbalanced
  pos := fun b hb => hpos b (Finset.mem_of_mem_erase hb) (Finset.ne_of_mem_erase hb)
  sub := (Finset.erase_subset a alive).trans hsub
  gone := fun b hb hnot => by
    by_cases hba : b = a
    · exact hba ▸ hdoomed
    · exact hgone b hb fun hin => hnot (Finset.mem_erase.mpr ⟨hba, hin⟩)
  debtor := fun b hb => by
    rcases List.mem_append.mp hb with hchild | hdebt
    · exact ⟨a, hsub ha, hchild⟩
    · exact hdebtor b hdebt
  queued_iff := fun b hb => hqueued b (Finset.mem_of_mem_erase hb) (Finset.ne_of_mem_erase hb)
  queue_sub := fun b hb => Finset.mem_erase.mpr ⟨(hqueue b hb).2, (hqueue b hb).1⟩
  queue_nodup := hnodup
  orphans := horphans

/-! ## Giving back a reference -/

theorem allocatorDecRef_eq {a : Nat} {s : GcState} (hpos : s.refs a ≠ 0) : allocatorDecRef a s =
    .ok { s with refs := Function.update s.refs a (s.refs a - 1) } := if_neg hpos

/-- **The recursion.**  A node that loses its last reference is freed with what it alone refers to, or
the thread waits. -/
theorem nodeDecRef_spec (hrank : ∀ a ∈ all, ∀ c ∈ nodes.children a, rank c < rank a)
    (fuel : Nat) {a : Nat} (hfuel : rank a < fuel) :
    GivesBack nodes inUse ext all root (nodeDecRef nodes inUse fuel) a := by
  induction fuel generalizing a with
  | zero => cases hfuel
  | succ fuel ih =>
      intro alive debts s hlocked h
      have ha : a ∈ alive := h.balanced.owed a List.mem_cons_self
      have htwo : 2 ≤ s.refs a := by
        have hcount : 0 < s.refs a - 1 := h.balanced.count_pos
        omega
      have hnotQueued : a ∉ s.queue := fun hin => by
        have hone : s.refs a = 1 := (h.queued_iff a ha).mpr hin
        omega
      obtain ⟨s₁, hs₁⟩ : ∃ s₁ : GcState,
          s₁ = { s with refs := Function.update s.refs a (s.refs a - 1) } := ⟨_, rfl⟩
      have hdec : allocatorDecRef a s = .ok s₁ := hs₁ ▸ allocatorDecRef_eq (by omega)
      have hself : s₁.refs a = s.refs a - 1 := by
        rw [hs₁]
        exact Function.update_self ..
      have hothers : ∀ b, b ≠ a → s₁.refs b = s.refs b := fun b hb => by
        rw [hs₁]
        exact Function.update_of_ne hb ..
      have hqueue : s₁.queue = s.queue := by rw [hs₁]
      have hlocked₁ : s₁.locked = true := by rw [hs₁]; exact hlocked
      have hbalanced : Lib.Balanced nodes.children ext s₁.counts alive debts := by
        refine h.balanced.pay.congr fun b _ => ?_
        by_cases hba : b = a
        · subst hba
          rw [Function.update_self, GcState.counts, GcState.counts, hself]
          rfl
        · rw [Function.update_of_ne hba, GcState.counts, GcState.counts, hothers b hba]
      have hpos : ∀ b ∈ alive, alNoRefs ≤ s₁.refs b := by
        intro b hb
        by_cases hba : b = a
        · subst hba
          rw [hself]
          show 1 ≤ _
          omega
        · rw [hothers b hba]
          exact h.pos b hb
      show Outcome nodes inUse ext all root alive debts s
        ((allocatorDecRef a s).bind fun s => if s.refs a = alNoRefs then _ else _)
      rw [hdec]
      show Outcome nodes inUse ext all root alive debts s (if s₁.refs a = alNoRefs then _ else _)
      have hstart : Frees nodes inUse alive alive s s₁ := by
        refine { Frees.refl nodes inUse alive s with
          queue_eq := hqueue, locked_eq := hlocked₁.trans hlocked.symm, frame := ?_, gone := ?_,
          freed := ?_ }
        · exact fun b hb => hothers b fun heq => hb (heq ▸ ha)
        · exact fun b hin hnot => absurd hin hnot
        · obtain ⟨l, hl⟩ := (Frees.refl nodes inUse alive s).freed
          exact ⟨l, by rw [hs₁]; exact hl⟩
      by_cases hlast : s₁.refs a = alNoRefs
      · rw [if_pos hlast]
        have hzero : s₁.counts a = 0 := by
          rw [GcState.counts, hlast]
          rfl
        have hdoomed : Lib.Doomed nodes.children ext all root a :=
          hbalanced.doomed h.sub h.gone ha hzero (h.debtor a List.mem_cons_self)
        cases huse : inUse a with
        | true =>
            rw [if_pos rfl, if_pos hlocked₁]
            exact Or.inl ⟨rfl, a, hdoomed, huse⟩
        | false =>
            rw [if_neg Bool.false_ne_true]
            have hinv : GcInv nodes ext all root (alive.erase a) (nodes.children a ++ debts) s₁ := by
              refine GcInv.erase (hbalanced.remove ha hzero) ha h.sub (fun b hb _ => hpos b hb) h.gone
                hdoomed (fun b hb => h.debtor b (List.mem_cons_of_mem _ hb)) ?_ ?_ ?_ ?_
              · intro b hb hba
                rw [hothers b hba, hqueue]
                exact h.queued_iff b hb
              · intro b hb
                rw [hqueue] at hb
                exact ⟨h.queue_sub b hb, fun heq => hnotQueued (heq ▸ hb)⟩
              · exact hqueue ▸ h.queue_nodup
              · exact fun b hb => h.orphans b (hqueue ▸ hb)
            have hchildren : ∀ c ∈ nodes.children a,
                GivesBack nodes inUse ext all root (nodeDecRef nodes inUse fuel) c := by
              intro c hc
              refine ih ?_
              have := hrank a (h.sub ha) c hc
              omega
            rcases gcWith_spec hchildren hlocked₁ ha hlast huse hinv with
              hstuck | ⟨alive', s', hok, hinv', hfrees⟩
            · exact Or.inl hstuck
            · exact Or.inr ⟨alive', s', hok, hinv', hstart.trans hfrees⟩
      · rw [if_neg hlast]
        refine Or.inr ⟨alive, s₁, rfl, ?_, hstart⟩
        constructor
        · exact hbalanced
        · exact hpos
        · exact h.sub
        · exact h.gone
        · exact fun b hb => h.debtor b (List.mem_cons_of_mem _ hb)
        · intro b hb
          rw [hqueue]
          by_cases hba : b = a
          · subst hba
            exact iff_of_false hlast hnotQueued
          · rw [hothers b hba]
            exact h.queued_iff b hb
        · exact fun b hb => h.queue_sub b (hqueue ▸ hb)
        · exact hqueue ▸ h.queue_nodup
        · exact fun b hb => h.orphans b (hqueue ▸ hb)

/-! ## The queue -/

def freeFront (inUse : Nat → Bool) (queue : List Nat) : List Nat :=
  queue.takeWhile fun a => !inUse a

def heldBack (inUse : Nat → Bool) (queue : List Nat) : List Nat :=
  queue.dropWhile fun a => !inUse a

theorem GcInv.dequeue {alive : Finset Nat} {s : GcState} {a : Nat} {queue : List Nat}
    (h : GcInv nodes ext all root alive [] s) (hqueue : s.queue = a :: queue) (ha : root a) :
    GcInv nodes ext all root (alive.erase a) (nodes.children a ++ []) { s with queue := queue } ∧
      a ∈ alive ∧ s.refs a = alNoRefs := by
  have hmem : a ∈ s.queue := hqueue ▸ List.mem_cons_self
  have halive : a ∈ alive := h.queue_sub a hmem
  have hrefs : s.refs a = alNoRefs := (h.queued_iff a halive).mpr hmem
  obtain ⟨hnotMem, hnodup⟩ := List.nodup_cons.mp (hqueue ▸ h.queue_nodup)
  have hrest : ∀ b ∈ queue, b ∈ s.queue := fun b hb => hqueue ▸ List.mem_cons_of_mem _ hb
  have hzero : s.counts a = 0 := by
    rw [GcState.counts, hrefs]
    rfl
  refine ⟨GcInv.erase (h.balanced.remove halive hzero) halive h.sub (fun b hb _ => h.pos b hb) h.gone
    (.root ha) h.debtor ?_ ?_ hnodup ?_, halive, hrefs⟩
  · intro b hb hba
    show s.refs b = alNoRefs ↔ b ∈ queue
    rw [h.queued_iff b hb, hqueue, List.mem_cons, or_iff_right hba]
  · intro b hb
    exact ⟨h.queue_sub b (hrest b hb), fun heq => hnotMem (heq ▸ hb)⟩
  · exact fun b hb => h.orphans b (hrest b hb)

theorem pendingLoop_spec (hrank : ∀ a ∈ all, ∀ c ∈ nodes.children a, rank c < rank a) {fuel : Nat}
    (hfuel : ∀ a ∈ all, rank a ≤ fuel) (rounds : Nat) {alive : Finset Nat} {s : GcState}
    (hrounds : s.queue.length ≤ rounds) (hlocked : s.locked = true)
    (h : GcInv nodes ext all root alive [] s) (hroot : ∀ a ∈ freeFront inUse s.queue, root a) :
    (pendingLoop nodes inUse fuel rounds s = .waits ∧ Stuck nodes inUse ext all root) ∨
      ∃ alive' s', pendingLoop nodes inUse fuel rounds s = .ok s' ∧
        GcInv nodes ext all root alive' [] s' ∧ s'.queue = heldBack inUse s.queue ∧
        Frees nodes inUse alive alive' s { s' with queue := s.queue } := by
  induction rounds generalizing alive s with
  | zero =>
      have hnil : s.queue = [] := List.eq_nil_of_length_eq_zero (Nat.le_zero.mp hrounds)
      refine Or.inr ⟨alive, s, ?_, h, ?_, Frees.refl ..⟩
      · rw [pendingLoop, hnil]
      · rw [hnil]
        rfl
  | succ rounds ih =>
      cases hqueue : s.queue with
      | nil =>
          refine Or.inr ⟨alive, s, ?_, h, hqueue, ?_⟩
          · rw [pendingLoop, hqueue]
          · rw [← hqueue]
            exact Frees.refl ..
      | cons a queue =>
          cases huse : inUse a with
          | true =>
              refine Or.inr ⟨alive, s, ?_, h, ?_, ?_⟩
              · rw [pendingLoop, hqueue]
                exact if_pos huse
              · rw [hqueue, heldBack, List.dropWhile_cons_of_neg (by rw [huse]; decide)]
              · rw [← hqueue]
                exact Frees.refl ..
          | false =>
              have hfront : freeFront inUse s.queue = a :: freeFront inUse queue := by
                rw [hqueue, freeFront, List.takeWhile_cons_of_pos (by rw [huse]; rfl)]
                rfl
              have hback : heldBack inUse (a :: queue) = heldBack inUse queue := by
                rw [heldBack, List.dropWhile_cons_of_pos (by rw [huse]; rfl)]
                rfl
              obtain ⟨hinv, halive, hrefs⟩ :=
                h.dequeue hqueue (hroot a (hfront ▸ List.mem_cons_self))
              have hchildren : ∀ c ∈ nodes.children a,
                  GivesBack nodes inUse ext all root (nodeDecRef nodes inUse fuel) c := by
                intro c hc
                refine nodeDecRef_spec hrank fuel ?_
                have hlt := hrank a (h.sub halive) c hc
                have hle := hfuel a (h.sub halive)
                omega
              have hstep : pendingLoop nodes inUse fuel (rounds + 1) s =
                  (nodeGc nodes inUse fuel a { s with queue := queue }).bind
                    (pendingLoop nodes inUse fuel rounds) := by
                rw [pendingLoop, hqueue]
                exact if_neg (by rw [huse]; exact Bool.false_ne_true)
              rw [hstep, hback]
              rcases gcWith_spec (s := { s with queue := queue }) hchildren hlocked halive hrefs huse
                  hinv with ⟨hwaits, hstuck⟩ | ⟨alive', s', hok, hinv', hfrees⟩
              · refine Or.inl ⟨?_, hstuck⟩
                rw [nodeGc, hwaits]
                rfl
              · have hqueue' : s'.queue = queue := hfrees.queue_eq
                rw [nodeGc, hok]
                show (pendingLoop nodes inUse fuel rounds s' = .waits ∧ _) ∨
                  ∃ alive' s'', pendingLoop nodes inUse fuel rounds s' = .ok s'' ∧ _
                rw [hqueue, List.length_cons] at hrounds
                rcases ih (by rw [hqueue']; omega) (hfrees.locked_eq.trans hlocked) hinv' (fun b hb =>
                    hroot b (hfront ▸ List.mem_cons_of_mem _ (hqueue' ▸ hb))) with
                  hstuck | ⟨alive'', s'', hok', hinv'', hback', hfrees'⟩
                · exact Or.inl hstuck
                · refine Or.inr ⟨alive'', s'', hok', hinv'', hqueue' ▸ hback', ?_⟩
                  have hboth := hfrees.trans hfrees'
                  exact { hboth with queue_eq := hqueue.symm }

/-! ## The call -/

/-- The nodes before a call: the counts are right, and the nodes without references are queued, each
once. -/
structure PendingReady (nodes : NodeStore K) (ext : Nat → Nat) (all : Finset Nat) (s : GcState) :
    Prop where
  balanced : Lib.Balanced nodes.children ext s.counts all []
  pos : ∀ a ∈ all, alNoRefs ≤ s.refs a
  queued_iff : ∀ a ∈ all, s.refs a = alNoRefs ↔ a ∈ s.queue
  queue_sub : ∀ a ∈ s.queue, a ∈ all
  queue_nodup : s.queue.Nodup
  unlocked : s.locked = false

/-- What a call is for: the nodes that no reader uses and nothing refers to are freed, each once with
what it holds; the other nodes keep the right counts, and those of them without references are used
and are queued, each once. -/
def FreesExactly (nodes : NodeStore K) (inUse : Nat → Bool) (ext : Nat → Nat) (all : Finset Nat)
    (s s' : GcState) : Prop :=
  ∃ alive' ⊆ all, Lib.Balanced nodes.children ext s'.counts alive' [] ∧
    (∃ l : List Nat, l.Nodup ∧ (∀ a, a ∈ l ↔ a ∈ all ∧ a ∉ alive') ∧ s'.freed = s.freed ++ l ∧
      s'.dropped = s.dropped ++ l.flatMap nodes.heldRefs) ∧
    (∀ a ∈ all, a ∉ alive' → s'.refs a = 0 ∧ ext a = 0 ∧ inUse a = false) ∧
    (∀ a ∈ alive', s'.refs a = alNoRefs ↔ a ∈ s'.queue) ∧ s'.queue.Nodup ∧
    ∀ a ∈ s'.queue, a ∈ alive' ∧ inUse a = true

/-- The call returns, the lock is free, and it has freed what it is for. -/
def CollectsExactly (nodes : NodeStore K) (inUse : Nat → Bool) (ext : Nat → Nat) (all : Finset Nat)
    (fuel : Nat) (s : GcState) : Prop :=
  ∃ s', performPendingGcs nodes inUse fuel s = .ok s' ∧ s'.locked = false ∧
    FreesExactly nodes inUse ext all s s'

def GoesWithFront (nodes : NodeStore K) (inUse : Nat → Bool) (ext : Nat → Nat) (all : Finset Nat)
    (queue : List Nat) (a : Nat) : Prop :=
  Lib.Doomed nodes.children ext all (· ∈ freeFront inUse queue) a

namespace PendingReady

variable {s : GcState} (h : PendingReady nodes ext all s)

include h

theorem unreferenced {a : Nat} (ha : a ∈ s.queue) :
    ext a = 0 ∧ ∀ p ∈ all, a ∉ nodes.children p := by
  have hall := h.queue_sub a ha
  have hrefs := (h.queued_iff a hall).mpr ha
  have hzero : s.counts a = 0 := by
    rw [GcState.counts, hrefs]
    rfl
  obtain ⟨hext, hparents, -⟩ := h.balanced.unreferenced hall hzero
  exact ⟨hext, hparents⟩

theorem gcInv (inUse : Nat → Bool) :
    GcInv nodes ext all (· ∈ freeFront inUse s.queue) all [] { s with locked := true } where
  balanced := h.balanced
  pos := h.pos
  sub := Finset.Subset.refl _
  gone := fun _ hin hnot => absurd hin hnot
  debtor := fun a ha => by cases ha
  queued_iff := h.queued_iff
  queue_sub := h.queue_sub
  queue_nodup := h.queue_nodup
  orphans := fun _ ha => (h.unreferenced ha).2

theorem ext_eq_zero {a : Nat} (ha : GoesWithFront nodes inUse ext all s.queue a) : ext a = 0 := by
  cases ha with
  | root hroot => exact (h.unreferenced (List.takeWhile_subset _ hroot)).1
  | orphan _ hext _ _ => exact hext

end PendingReady

/-- **When a call frees exactly what it is for.**  No node that goes with the front of the queue is
used, and behind the first node that is used there are only such. -/
theorem performPendingGcs_exact_iff (hrank : ∀ a ∈ all, ∀ c ∈ nodes.children a, rank c < rank a)
    {fuel : Nat} (hfuel : ∀ a ∈ all, rank a ≤ fuel) {s : GcState}
    (h : PendingReady nodes ext all s) :
    CollectsExactly nodes inUse ext all fuel s ↔
      (∀ a, GoesWithFront nodes inUse ext all s.queue a → inUse a = false) ∧
        ∀ a ∈ heldBack inUse s.queue, inUse a = true := by
  have hstart : performPendingGcs nodes inUse fuel s =
      (pendingLoop nodes inUse fuel s.queue.length { s with locked := true }).bind fun s =>
        .ok { s with locked := false } := if_neg (by rw [h.unlocked]; exact Bool.false_ne_true)
  rcases pendingLoop_spec hrank hfuel s.queue.length (s := { s with locked := true }) (le_refl _) rfl
      (h.gcInv inUse) (fun a ha => ha) with
    ⟨hwaits, a, hdoomed, huse⟩ | ⟨alive', s', hok, hinv, hback, hfrees⟩
  · constructor
    · rintro ⟨s', hrun, -⟩
      rw [hstart, hwaits] at hrun
      cases hrun
    · rintro ⟨hfree, -⟩
      have hnot := hfree a hdoomed
      rw [huse] at hnot
      cases hnot
  · have hrun : performPendingGcs nodes inUse fuel s = .ok { s' with locked := false } := by
      rw [hstart, hok]
      rfl
    have hbackSub : ∀ a ∈ s'.queue, a ∈ s.queue := fun a ha =>
      (List.dropWhile_sublist _).subset (hback ▸ ha)
    constructor
    · rintro ⟨s'', hrun', -, hexact⟩
      obtain rfl : { s' with locked := false } = s'' := by
        rw [hrun] at hrun'
        exact GcResult.ok.inj hrun'
      obtain ⟨_, _, _, _, _, _, _, hused⟩ := hexact
      refine ⟨fun a hgoes => ?_, fun a ha => (hused a (hback ▸ ha)).2⟩
      -- A node of the front is not in the queue any more, so it is not alive.
      have hroot : ∀ b, b ∈ freeFront inUse s.queue → b ∉ alive' := by
        intro b hb halive
        have hbQueue : b ∈ s.queue := List.takeWhile_subset _ hb
        have hbFree : inUse b = false := by
          have hall : (!inUse b) = true := List.all_eq_true.mp List.all_takeWhile b hb
          simpa using hall
        have hone : s'.refs b = alNoRefs := by
          obtain ⟨hext, hparents⟩ := h.unreferenced hbQueue
          have hcount := hinv.balanced.count_eq b halive
          have hnone : Lib.childCount nodes.children alive' b = 0 :=
            Lib.childCount_eq_zero_iff.mpr fun p hp => hparents p (hinv.sub hp)
          have hpos := hinv.pos b halive
          rw [hext, hnone, List.count_nil] at hcount
          unfold GcState.counts alNoRefs at hcount
          unfold alNoRefs at hpos ⊢
          omega
        have huse := (hused b ((hinv.queued_iff b halive).mp hone)).2
        rw [hbFree] at huse
        cases huse
      have hgone : a ∉ alive' := hinv.balanced.not_mem_of_doomed hinv.sub hroot (fun b hb hzero => by
        have hone : s'.refs b = alNoRefs := by
          have hpos := hinv.pos b hb
          unfold GcState.counts alNoRefs at hzero
          unfold alNoRefs at hpos ⊢
          omega
        exact hinv.orphans b ((hinv.queued_iff b hb).mp hone)) hgoes
      have hall : a ∈ all := by
        cases hgoes with
        | root hroot' => exact h.queue_sub a (List.takeWhile_subset _ hroot')
        | orphan hin _ _ _ => exact hin
      exact (hfrees.gone a hall hgone).2
    · rintro ⟨-, hused⟩
      refine ⟨_, hrun, rfl, alive', hfrees.sub, hinv.balanced, hfrees.freed, ?_, hinv.queued_iff,
        hinv.queue_nodup, fun a ha => ⟨hinv.queue_sub a ha, hused a (hback ▸ ha)⟩⟩
      intro a hall hgone
      obtain ⟨hzero, hfree⟩ := hfrees.gone a hall hgone
      exact ⟨hzero, h.ext_eq_zero (hinv.gone a hall hgone), hfree⟩

end

/-! ## A root and its leaf -/

private def rootAndLeaf : NodeStore Nat := fun addr =>
  if addr = 131072 then some ⟨1, [(100, ⟨⊥, 262144, 0, ⟨0, [7]⟩⟩), (200, ⟨⊤, 0, 0, emptyBundle⟩)], []⟩
  else if addr = 262144 then some ⟨0, [(100, ⟨⊥, 0, 0, ⟨0, [8]⟩⟩), (200, ⟨⊤, 0, 0, emptyBundle⟩)], []⟩
  else none

private def rootQueued : GcState where
  refs := fun addr => if addr = 131072 then 1 else if addr = 262144 then 2 else 0
  queue := [131072]
  locked := false
  freed := []
  dropped := []

private def rootAndLeafRank (addr : Nat) : Nat := if addr = 131072 then 1 else 0

private theorem rootQueued_ready :
    PendingReady rootAndLeaf (fun _ => 0) {131072, 262144} rootQueued where
  balanced := ⟨by decide +kernel, by decide +kernel, fun a ha => by cases ha⟩
  pos := by decide +kernel
  queued_iff := by decide +kernel
  queue_sub := by decide +kernel
  queue_nodup := List.nodup_singleton _
  unlocked := rfl

/-- If no reader uses the leaf, the root and the leaf are freed. -/
theorem performPendingGcs_exact_iff_root :
    CollectsExactly rootAndLeaf (fun _ => false) (fun _ => 0) {131072, 262144} 1 rootQueued :=
  have hrank : ∀ a ∈ ({131072, 262144} : Finset Nat), ∀ c ∈ rootAndLeaf.children a,
      rootAndLeafRank c < rootAndLeafRank a := by decide +kernel
  (performPendingGcs_exact_iff hrank (by decide +kernel) rootQueued_ready).mpr
    ⟨fun _ _ => rfl, fun a ha => by cases ha⟩

/-- If a reader uses the leaf, the thread waits for its own lock. -/
theorem performPendingGcs_waits : ¬ ∀ (inUse : Nat → Bool) (s : GcState),
    PendingReady rootAndLeaf (fun _ => 0) {131072, 262144} s →
      CollectsExactly rootAndLeaf inUse (fun _ => 0) {131072, 262144} 1 s := by
  intro hclaim
  obtain ⟨s', hrun, -⟩ := hclaim (fun addr => addr == 262144) rootQueued rootQueued_ready
  have hwaits : performPendingGcs rootAndLeaf (fun addr => addr == 262144) 1 rootQueued = .waits := rfl
  rw [hwaits] at hrun
  cases hrun

end Trunk
end TreePass
