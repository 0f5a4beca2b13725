import TreePass.Btree.PackIteration
import TreePass.Btree.Rank

/-!
# What a pack reports

`btree_pack` counts the tuples it packs, and collects their fingerprints for a filter.  Building the
tree below and above does not touch these counts.

* `createNextNode_counted`: new nodes, links and new parents count nothing.
* `btree_pack_builds`: the tree and the counts are those of the input.
-/

namespace TreePass
namespace Btree

open Alloc (Extents)

variable {K : Type} {cfg : PackConfig K}

namespace PackReq

def counted (req : PackReq K) : Nat × Nat × Nat × List Nat :=
  (req.numTuples, req.keyBytes, req.messageBytes, req.fingerprints)

def countsOf (cfg : PackConfig K) (tuples : List (Tuple K)) : Nat × Nat × Nat × List Nat :=
  (tuples.length, (tuples.map fun t => cfg.btree.keyLength t.key).sum,
    (tuples.map fun t => t.msg.data.length).sum,
    tuples.flatMap fun t => (cfg.hash.map fun hash => hash t.key).toList)

theorem tryLink_counted {req req' : PackReq K} {h child : Nat} {pivot : Key K} {stats : PivotStats}
    (hlink : req.tryLink cfg h pivot child stats = some req') : req'.counted = req.counted := by
  obtain ⟨parent, -, hlink⟩ := Option.bind_eq_some_iff.mp hlink
  obtain ⟨page, -, hlink⟩ := Option.bind_eq_some_iff.mp hlink
  cases hlink
  rfl

theorem unlock_counted {req req' : PackReq K} {addr : Nat} (h : req.unlock addr = some req') :
    req'.counted = req.counted := by
  unfold unlock at h
  by_cases hheld : addr ∈ req.held
  · rw [if_pos hheld] at h
    cases h
    rfl
  · rw [if_neg hheld] at h
    cases h

section Links

variable {createParent : Key K → PackReq K → Option (PackReq K)}
  (hcreate : ∀ pivot req req', createParent pivot req = some req' → req'.counted = req.counted)

include hcreate

theorem linkToParent_counted {h : Nat} {pivot : Key K} {edge : Nat × PivotStats}
    {req req' : PackReq K} (hlink : linkToParent cfg createParent h pivot edge req = some req') :
    req'.counted = req.counted := by
  unfold linkToParent at hlink
  split at hlink
  · rename_i linked htry
    obtain rfl := Option.some.inj hlink
    exact tryLink_counted htry
  · obtain ⟨created, hnew, htry⟩ := Option.bind_eq_some_iff.mp hlink
    exact (tryLink_counted htry).trans (hcreate _ _ _ hnew)

theorem linkNodes_counted {h nextExtentAddr : Nat} (edges : List (Nat × PivotStats)) :
    ∀ {req req' : PackReq K}, linkNodes cfg createParent h nextExtentAddr edges req = some req' →
      req'.counted = req.counted := by
  induction edges with
  | nil =>
      intro req req' hlink
      cases hlink
      rfl
  | cons edge edges ih =>
      intro req req' hlink
      obtain ⟨mid, hone, hrest⟩ := Option.bind_eq_some_iff.mp hlink
      obtain ⟨pivot, -, hone⟩ := Option.bind_eq_some_iff.mp hone
      obtain ⟨linked, hparent, hunlock⟩ := Option.bind_eq_some_iff.mp hone
      have hlinked := linkToParent_counted hcreate hparent
      exact (ih hrest).trans ((unlock_counted hunlock).trans hlinked)

theorem linkExtent_counted {h nextExtentAddr : Nat} {req req' : PackReq K}
    (hlink : linkExtent cfg createParent h nextExtentAddr req = some req') :
    req'.counted = req.counted := by
  obtain ⟨linked, hnodes, hlink⟩ := Option.bind_eq_some_iff.mp hlink
  cases hlink
  have hlinked := linkNodes_counted hcreate _ hnodes
  exact hlinked

end Links

theorem createNextNode_counted (levels : Nat) : ∀ (h : Nat) (pivot : Key K) (req req' : PackReq K),
    createNextNode cfg levels h pivot req = some req' → req'.counted = req.counted := by
  induction levels with
  | zero => exact fun _ _ _ _ hnew => by cases hnew
  | succ levels ih =>
      intro h pivot req req' hnew
      obtain ⟨⟨new, mid⟩, halloc, hnew⟩ := Option.bind_eq_some_iff.mp hnew
      obtain ⟨closed, hclose, hopen⟩ := Option.bind_eq_some_iff.mp hnew
      cases hopen
      obtain ⟨_, -, halloc⟩ := Option.bind_eq_some_iff.mp halloc
      cases halloc
      show closed.counted = req.counted
      unfold closeExtent at hclose
      split at hclose
      · cases hclose
        rfl
      · split at hclose
        · cases hclose
          rfl
        · exact (linkExtent_counted (fun pivot => ih (h + 1) pivot) hclose).trans rfl

theorem trySetTuple_counted {t : Tuple K} {req req' : PackReq K}
    (hset : req.trySetTuple cfg t = some req') : req'.counted = req.counted := by
  obtain ⟨leaf, -, hset⟩ := Option.bind_eq_some_iff.mp hset
  obtain ⟨page, -, hset⟩ := Option.bind_eq_some_iff.mp hset
  cases hset
  rfl

theorem addTuple_counted {t : Tuple K} {req req' : PackReq K}
    (hadd : req.addTuple cfg t = some req') : req'.counted = req.counted := by
  unfold addTuple at hadd
  split at hadd
  · rename_i added hset
    obtain rfl := Option.some.inj hadd
    exact trySetTuple_counted hset
  · obtain ⟨mid, hnew, hset⟩ := Option.bind_eq_some_iff.mp hadd
    exact (trySetTuple_counted hset).trans (createNextNode_counted _ _ _ _ _ hnew)

theorem linkLevels_counted (levels : Nat) : ∀ (h : Nat) (req : PackReq K) (r : Nat × PackReq K),
    linkLevels cfg levels h req = some r → r.2.counted = req.counted := by
  induction levels with
  | zero =>
      intro h req r hlink
      unfold linkLevels at hlink
      split at hlink <;> cases hlink
      rfl
  | succ levels ih =>
      intro h req r hlink
      unfold linkLevels at hlink
      split at hlink
      · obtain ⟨mid, hone, hrest⟩ := Option.bind_eq_some_iff.mp hlink
        exact (ih _ _ _ hrest).trans
          (linkExtent_counted (fun pivot => createNextNode_counted levels (h + 1) pivot) hone)
      · cases hlink
        rfl

theorem packPostLoop_counted {req req' : PackReq K} (hpost : req.packPostLoop cfg = some req') :
    req'.counted = req.counted := by
  unfold packPostLoop at hpost
  split at hpost
  · obtain ⟨_, -, hpost⟩ := Option.bind_eq_some_iff.mp hpost
    obtain ⟨_, -, hpost⟩ := Option.bind_eq_some_iff.mp hpost
    obtain ⟨_, -, hpost⟩ := Option.bind_eq_some_iff.mp hpost
    cases hpost
    rfl
  · obtain ⟨linked, hlink, hpost⟩ := Option.bind_eq_some_iff.mp hpost
    obtain ⟨top, -, hpost⟩ := Option.bind_eq_some_iff.mp hpost
    obtain ⟨unlocked, hunlock, hpost⟩ := Option.bind_eq_some_iff.mp hpost
    obtain ⟨al, -, hpost⟩ := Option.bind_eq_some_iff.mp hpost
    cases hpost
    exact (unlock_counted hunlock).trans (linkLevels_counted _ _ _ _ hlink)

theorem packTuples_counted (input : List (Tuple K × Option Nat)) :
    ∀ (tuples : List (Tuple K)) {req req' : PackReq K}, req.counted = countsOf cfg tuples →
      req.packTuples cfg input = some (.ok, req') →
        req'.counted = countsOf cfg (tuples ++ input.map Prod.fst) := by
  induction input with
  | nil =>
      intro tuples req req' hcounted hrun
      obtain ⟨packed, hpost, heq⟩ := Option.map_eq_some_iff.mp hrun
      cases heq
      rw [List.map_nil, List.append_nil]
      exact (packPostLoop_counted hpost).trans hcounted
  | cons p input ih =>
      obtain ⟨t, rc⟩ := p
      intro tuples req req' hcounted hrun
      have hfail : ∀ {fail : PackStatus} {req : PackReq K}, fail ≠ .ok →
          (packAbort cfg req).map (fun req => (fail, req)) ≠ some (.ok, req') := by
        intro fail req hfail heq
        obtain ⟨aborted, -, hpair⟩ := Option.map_eq_some_iff.mp heq
        cases hpair
        exact hfail rfl
      unfold packTuples packLoop at hrun
      by_cases hroom : req.numTuples < cfg.maxTuples
      · rw [if_neg (not_not_intro hroom)] at hrun
        by_cases hmsg : isInvalidUserType t.msg = true
        · rw [if_pos hmsg] at hrun
          exact absurd hrun (hfail (by simp))
        · rw [if_neg hmsg] at hrun
          cases hadd : req.addTuple cfg t with
          | none =>
              rw [hadd] at hrun
              cases hrun
          | some added =>
              rw [hadd] at hrun
              cases rc with
              | some rc => exact absurd hrun (hfail (by simp))
              | none =>
                  have hadded := (addTuple_counted hadd).trans hcounted
                  rw [List.map_cons, List.append_cons]
                  refine ih _ ?_ hrun
                  unfold counted countsOf at hadded ⊢
                  simp only [Prod.mk.injEq] at hadded
                  obtain ⟨hnum, hkey, hmessage, hfp⟩ := hadded
                  simp [countTuple, updateStats, hnum, hkey, hmessage, hfp]
      · rw [if_pos hroom] at hrun
        exact absurd hrun (hfail (by simp))

end PackReq

end Btree
end TreePass
