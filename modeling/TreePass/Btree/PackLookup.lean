import TreePass.Btree.AsyncLookupRuns
import TreePass.Btree.CountInRange
import TreePass.Btree.PackIteration
import TreePass.Merge.Spec

/-!
# Lookups in a packed tree

What `btree_pack` writes, `btree_lookup` finds: the message of every key of the input, and nothing
for any other key.

* `path_spec` is the way down to the leaf of a key.
* `leafMessage_eq`: the leaf answers for the whole tree.
* `btree_pack_lookup` is the round trip, for all lookups and whatever the pivot tracking does.
-/

namespace TreePass
namespace Btree

open Alloc (Extents)

variable {K : Type} [LinearOrder K]

def leafMessage (hdr : Page K) (target : Key K) : Option Message :=
  if (hdr.findTuple target).2 then (hdr.getLeafEntry (hdr.findTuple target).1.toNat).map Tuple.msg
  else none

theorem btreeLookup_of_node {cfg : Config K} {outcomes : LookupOutcomes} {type : PageType}
    (kind : LookupKind) (merge : MergeOutcomes) {rootAddr : Addr} {target : Key K}
    (result : Option Message) {s s' : Reader K} {found : Found}
    (hnode : btreeLookupNode cfg outcomes type rootAddr target 0 s = some (found, s')) :
    ∃ r, btreeLookup cfg outcomes type kind merge rootAddr target result s = some r ∧
      r.2.pages = s'.pages ∧ r.1.msg = leafMessage (s'.pages found.addr) target ∧
      (r.1.rc, r.1.result) = (leafMessage (s'.pages found.addr) target).elim (.ok (), result)
        (useMessage kind merge result) := by
  rw [btreeLookup, btreeLookupWithRef, hnode]
  unfold leafMessage
  by_cases hfound : ((s'.pages found.addr).findTuple target).2 = true
  · obtain ⟨entry, hentry⟩ := exists_leafEntry target hfound
    simp only [Option.bind_eq_bind, Option.bind_some, hfound, if_true, hentry]
    cases kind <;> exact ⟨_, rfl, rfl, rfl, rfl⟩
  · simp only [Option.bind_eq_bind, Option.bind_some, hfound]
    exact ⟨_, rfl, rfl, rfl, rfl⟩

namespace LevelPages

variable {cfg : Config K} {pages : Nat → Page K} {rootAddr top : Nat} {nodes : Nat → List Nat}
  {tuples : List (Tuple K)} (s : LevelPages cfg pages rootAddr top nodes tuples)

include s

theorem path_spec (hasc : tuples.Pairwise fun t t' => t.key < t'.key) (outcomes : LookupOutcomes)
    (x : Key K) (n : Nat) : ∀ {p : Nat} {addr : Addr} (isWarm : Bool), n ≤ top →
      LevelShaped.FoundAt (fun a => (pages a).view) rootAddr n x p addr.toNat →
        ∃ q p', path outcomes .memtable x 0 n addr isWarm (fun a => pages a.toNat) = some q ∧
          q.pages = (fun a => pages a.toNat) ∧
          LevelShaped.FoundAt (fun a => (pages a).view) rootAddr 0 x p' q.addr.toNat := by
  induction n with
  | zero => exact fun _ _ hfound => ⟨_, _, rfl, rfl, hfound⟩
  | succ n ih =>
      intro p addr isWarm hle hfound
      have hroot : ((fun a => (pages a).view) rootAddr).height = top := s.height_root
      obtain ⟨hbound, hchild⟩ := (s.levelShaped hasc).foundAt_childIndex (hroot ▸ hle) hfound
      have hmem := List.mem_of_getElem? hfound.node
      rw [s.nodesOfHeight_eq (top - (n + 1)) (by omega)] at hmem
      have hkind := s.ofHeight (n + 1) hle _ hmem
      have hindex := Page.childIndex_view (s.height_eq (n + 1) hle _ hmem) (Nat.succ_ne_zero n)
        hkind x
      have hpivot := Page.view_pivots_getElem (Nat.succ_ne_zero n) hkind
        (childIndex (pages addr.toNat).view x)
      rw [List.getElem?_eq_getElem hbound] at hpivot
      obtain ⟨entry, hentry, hview⟩ := Option.map_eq_some_iff.mp hpivot.symm
      have haddr : childAddr (pages addr.toNat).view (childIndex (pages addr.toNat).view x) =
          entry.maskedChildAddr.toNat := by
        unfold childAddr
        rw [List.getElem?_eq_getElem hbound, ← hview]
        rfl
      rw [haddr] at hchild
      rw [← hindex] at hentry
      rw [path_succ outcomes .memtable x 0 isWarm hentry, resetStaleCounts_memtable]
      obtain ⟨q, p', hq, hpages, hend⟩ := ih (trackPivot outcomes .memtable
        (fun a => pages a.toNat) addr (0 + n + 1) _ entry isWarm).2.2 (by omega) hchild
      exact ⟨_, p', congrArg (Option.map _) hq, hpages, hend⟩

theorem leafMessage_eq (hasc : tuples.Pairwise fun t t' => t.key < t'.key) {k : K} {p a : Nat}
    (hfound : LevelShaped.FoundAt (fun a => (pages a).view) rootAddr 0 (Key.user k) p a) :
    leafMessage (pages a) (Key.user k) = (tuples.find? fun t => t.key = k).map (·.msg) := by
  have hnodes := s.nodesOfHeight_eq top (h := 0) (by omega)
  have hnode := hfound.node
  rw [hnodes] at hnode
  have hmem := List.mem_of_getElem? hnode
  have hkind := s.ofHeight 0 (Nat.zero_le top) a hmem
  have hsorted : ((pages a).view.tuples.map fun t => Key.user t.key).Pairwise (· < ·) :=
    List.pairwise_map.mpr ((s.leaf_ascending hasc hmem).imp fun hlt =>
      WithBot.coe_lt_coe.mpr (WithTop.coe_lt_coe.mpr hlt))
  unfold leafMessage
  by_cases hplace : ((pages a).findTuple (Key.user k)).2 = true
  · obtain ⟨entry, hentry⟩ := exists_leafEntry (Key.user k) hplace
    have hequal := (Lib.search_found hplace).2
    rw [Page.findTuple] at hentry
    rw [hentry] at hequal
    have hkey : entry.key = k := by
      have hcoe := (cmp_eq_eq_iff ..).mp hequal
      exact WithTop.coe_inj.mp (WithBot.coe_inj.mp hcoe)
    have hin : entry ∈ tuples := by
      rw [← Page.view_tuples_getElem hkind] at hentry
      rw [← s.tuples_eq]
      exact List.mem_flatMap.mpr ⟨a, hmem, List.mem_of_getElem? hentry⟩
    rw [if_pos hplace, (@Merge.find_key_eq_some_iff K _ true tuples hasc k entry).mpr ⟨hin, hkey⟩,
      Page.findTuple, hentry]
  · rw [if_neg hplace, eq_comm, Option.map_eq_none_iff, List.find?_eq_none]
    intro t ht hkey
    have hkey : t.key = k := by simpa using hkey
    rw [← s.tuples_eq] at ht
    obtain ⟨b, hb, htb⟩ := List.mem_flatMap.mp ht
    obtain ⟨i, hi⟩ := List.getElem?_of_mem hb
    have hchunk : (keyChunks (fun a => (pages a).view) rootAddr 0)[i]? =
        some ((pages b).view.tuples.map fun t => Key.user t.key) := by
      unfold keyChunks
      rw [hnodes, List.getElem?_map, hi, Option.map_some,
        Page.keys_of_leaf (s.height_eq 0 (Nat.zero_le top) b hb)]
    have hin : Key.user k ∈ (pages b).view.tuples.map fun t => Key.user t.key :=
      List.mem_map.mpr ⟨t, htb, by rw [hkey]⟩
    -- The key is in no leaf before or behind the one found, and not in that one either.
    rcases lt_trichotomy i p with hlt | rfl | hlt
    · exact lt_irrefl _ (hfound.before i _ hlt hchunk _ hin)
    · obtain rfl := Option.some.inj (hi.symm.trans hnode)
      obtain ⟨j, hj, hjk⟩ := List.getElem_of_mem hin
      have hle := (initial_le hsorted (Key.user k)).getElem_iff (List.getElem?_eq_getElem hj)
      have hlt := (initial_lt hsorted (Key.user k)).getElem_iff (List.getElem?_eq_getElem hj)
      rw [hjk, decide_eq_true_eq] at hle hlt
      rw [Page.findTuple_view hkind, findKey_eq hsorted, decide_eq_true_eq, not_lt] at hplace
      exact lt_irrefl _ (hlt.mpr ((hle.mp le_rfl).trans_le hplace))
    · exact lt_irrefl _ (hfound.after i _ hlt hchunk _ hin)

end LevelPages

/-- **A pack is read back by lookups.**  In a packed tree, `btree_lookup`, `btree_lookup_with_ref`
and `btree_lookup_and_merge` of any key find the message that the input has for it, or nothing where
it has none: the pages may be in the cache or not, and the borrowed bytes of the pivots may hold
anything before and are all that changes. -/
theorem btree_pack_lookup (cfg : PackConfig K) (hpage : 4096 ∣ cfg.extents.pageSize)
    (pages : Nat → Page K) (al : Extents) (hsupply : al.supply.Nodup)
    (hfresh : ∀ e ∈ al.supply, al.refCount e = 0 ∧ Alloc.IsExtent cfg.extents e)
    (input : List (Tuple K × Option Nat)) (hasc : input.Pairwise fun p q => p.1.key < q.1.key)
    (req : PackReq K) (hrun : pack cfg pages al input = some (.ok, req)) (hroot : req.rootAddr ≠ 0)
    (outcomes : LookupOutcomes) (type : PageType) (kind : LookupKind) (merge : MergeOutcomes)
    (result : Option Message) (s : Reader K)
    (hsame : SamePages (fun a => req.pages a.toNat) s.pages) (k : K) :
    ∃ r, btreeLookup cfg.btree outcomes type kind merge (BitVec.ofNat 64 req.rootAddr) (Key.user k)
        result s = some r ∧ SamePages (fun a => req.pages a.toNat) r.2.pages ∧
      r.1.msg = ((input.map Prod.fst).find? fun t => t.key = k).map (·.msg) ∧
      (r.1.rc, r.1.result) = r.1.msg.elim (.ok (), result) (useMessage kind merge result) := by
  have hne : input ≠ [] := by
    rintro rfl
    exact hroot (pack_nil_rootAddr hsupply hfresh hrun)
  obtain ⟨hextent, top, nodes, hlevels⟩ := pack_rootedPages hpage hsupply hfresh hne hrun
  have hkeys : (input.map Prod.fst).Pairwise fun t t' => t.key < t'.key :=
    List.pairwise_map.mpr hasc
  have haddr : (BitVec.ofNat 64 req.rootAddr : Addr).toNat = req.rootAddr :=
    PackReq.toNat_ofNat hextent.lt_size
  generalize BitVec.ofNat 64 req.rootAddr = root at haddr ⊢
  -- The same lookup without tracking.
  have hstart := @LevelShaped.foundAt_root K (fun a => (req.pages a).view) req.rootAddr _
    (Key.user k)
  rw [show ((fun a => (req.pages a).view) req.rootAddr).height = top from hlevels.height_root]
    at hstart
  obtain ⟨q, p, hq, hpages, hfound⟩ := @LevelPages.path_spec K _ _ _ _ _ _ _ hlevels hkeys outcomes
    (Key.user k) top 0 root true le_rfl (by rwa [haddr])
  have hturns := lookupTurns_eq_path outcomes .memtable (Key.user k) 0 cfg.btree top
    ⟨root, ⟨0, 0, 0⟩, true⟩ ⟨fun a => req.pages a.toNat, [.get root true]⟩
  rw [hq] at hturns
  obtain ⟨⟨found, s₁⟩, hlookup, heq⟩ := Option.map_eq_some_iff.mp hturns
  obtain ⟨hfoundAddr, -, hfoundPages, -⟩ := Path.mk.inj heq
  have hmemtable : btreeLookupNode cfg.btree outcomes .memtable root (Key.user k) 0
      ⟨fun a => req.pages a.toNat, []⟩ = some (found, s₁) := by
    unfold btreeLookupNode
    dsimp only
    rw [haddr, show (req.pages req.rootAddr).height = top from hlevels.height_root]
    exact hlookup
  obtain ⟨hread, hkeeps⟩ := @btreeLookupNode_agree K cfg.btree _ outcomes outcomes type .memtable
    root (Key.user k) 0 s ⟨fun a => req.pages a.toNat, []⟩ hsame.symm
  rw [hmemtable, Option.map_some] at hread
  obtain ⟨⟨found', s₂⟩, hnode, hseen⟩ := Option.map_eq_some_iff.mp hread
  obtain ⟨r, hr, hrpages, hmsg, hresult⟩ := btreeLookup_of_node kind merge result hnode
  have hleaf : leafMessage (s₂.pages found'.addr) (Key.user k) =
      leafMessage (s₁.pages found.addr) (Key.user k) := congrArg (fun seen => seen.2.2) hseen
  rw [show found.addr = q.addr from hfoundAddr, show s₁.pages = q.pages from hfoundPages, hpages,
    hlevels.leafMessage_eq hkeys hfound] at hleaf
  refine ⟨r, hr, ?_, hmsg.trans hleaf, by rw [hmsg, hresult]⟩
  rw [hrpages]
  exact hsame.trans (hkeeps _ hnode)

theorem btree_pack_lookup_nine_tuples : ∃ req, packedTree = some (.ok, req) ∧
    ∀ outcomes k, k = 5 ∨ k = 10 → ∃ r, btreeLookup longKeys.btree outcomes .branch .lookup
        ⟨true, fun _ m => some m⟩ (BitVec.ofNat 64 req.rootAddr) (Key.user k) none
          ⟨fun a => req.pages a.toNat, []⟩ = some r ∧
      r.1.msg = if k = 5 then some ⟨.insert, [1]⟩ else none := by
  obtain ⟨req, hrun, hroot, -, -⟩ := packedTree_spec
  refine ⟨req, hrun, fun outcomes k hk => ?_⟩
  obtain ⟨r, hr, -, hmsg, -⟩ := btree_pack_lookup longKeys (by decide) freshPages freeExtents
    (by decide) freeExtents_fresh nineTuples (by decide) req hrun hroot outcomes .branch .lookup
    ⟨true, fun _ m => some m⟩ none ⟨fun a => req.pages a.toNat, []⟩ (fun _ => rfl) k
  refine ⟨r, hr, hmsg.trans ?_⟩
  rcases hk with rfl | rfl <;> rfl

end Btree
end TreePass
