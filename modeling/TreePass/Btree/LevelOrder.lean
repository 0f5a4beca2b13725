import TreePass.Btree.Levels

/-!
# Trees in levels are well shaped

A tree whose heights are in order, and whose pivots are the first keys of the nodes they lead to, is
well shaped: the pivots of a node separate what is below its children.

* `LevelShaped.head_entriesUnder` is the first key below a node.
* `LevelShaped.wellShaped` is the result.
-/

namespace TreePass
namespace Btree
namespace LevelShaped

variable {K : Type} [LinearOrder K] {pages : Nat → Node K} {rootAddr : Nat}

/-! ## What is below a node -/

omit [LinearOrder K] in
theorem entriesUnder_succ (h addr : Nat) :
    entriesUnder pages (h + 1) addr =
      (pages addr).pivots.flatMap fun e => entriesUnder pages h e.childAddr := by
  unfold entriesUnder
  rw [leavesUnder, List.flatMap_assoc]

omit [LinearOrder K] in
theorem child_mem {h addr : Nat} (hlt : h < (pages rootAddr).height)
    (hmem : addr ∈ nodesOfHeight pages rootAddr (h + 1)) {e : IndexEntry K}
    (he : e ∈ (pages addr).pivots) : e.childAddr ∈ nodesOfHeight pages rootAddr h := by
  rw [nodesOfHeight_eq hlt]
  exact List.mem_flatMap.mpr ⟨addr, hmem, List.mem_map_of_mem he⟩

omit [LinearOrder K] in
theorem flatMap_entriesUnder (h : Nat) : h ≤ (pages rootAddr).height →
    (nodesOfHeight pages rootAddr h).flatMap (entriesUnder pages h) = contents pages rootAddr := by
  induction h with
  | zero =>
      intro _
      have hone : ∀ addr, entriesUnder pages 0 addr = (pages addr).entries := fun addr =>
        List.flatMap_singleton _ addr
      unfold contents chunks nodesOfHeight leaves
      rw [List.flatMap_congr fun addr _ => hone addr, List.flatMap_def]
      rfl
  | succ h ih =>
      intro hle
      rw [← ih (by omega), nodesOfHeight_eq hle, List.flatMap_assoc]
      refine List.flatMap_congr fun addr _ => ?_
      rw [entriesUnder_succ, List.flatMap_map]

variable (s : LevelShaped pages rootAddr)

include s

theorem contents_keys : (contents pages rootAddr).map Prod.fst = keysOfHeight pages rootAddr 0 := by
  unfold contents chunks keysOfHeight keyChunks
  rw [List.map_flatten, List.map_map]
  congr 1
  refine List.map_congr_left fun addr haddr => ?_
  unfold Node.keys
  rw [if_pos (s.height_eq 0 (Nat.zero_le _) addr haddr)]
  rfl

theorem contents_ascending : (contents pages rootAddr).Pairwise fun x y => x.1 < y.1 := by
  have hkeys := s.ascending
  rw [← s.contents_keys] at hkeys
  exact List.pairwise_map.mp hkeys

theorem entriesUnder_ascending {h addr : Nat} (hle : h ≤ (pages rootAddr).height)
    (hmem : addr ∈ nodesOfHeight pages rootAddr h) :
    (entriesUnder pages h addr).Pairwise fun x y => x.1 < y.1 := by
  have hasc := s.contents_ascending
  rw [← flatMap_entriesUnder h hle] at hasc
  exact (List.pairwise_flatMap.mp hasc).1 addr hmem

theorem head_entriesUnder (h : Nat) : h ≤ (pages rootAddr).height →
    ∀ addr ∈ nodesOfHeight pages rootAddr h,
      (entriesUnder pages h addr).head?.map Prod.fst = (pages addr).keys.head? := by
  induction h with
  | zero =>
      intro hle addr hmem
      have hone : entriesUnder pages 0 addr = (pages addr).entries :=
        List.flatMap_singleton _ addr
      unfold Node.keys
      rw [hone, if_pos (s.height_eq 0 hle addr hmem), List.head?_map]
  | succ h ih =>
      intro hle addr hmem
      have hkeys := s.keys_eq (Nat.succ_pos h) hle hmem
      have hne := s.nonempty (h + 1) hle addr hmem
      rw [hkeys] at hne ⊢
      have hnonempty : (pages addr).pivots ≠ [] := by
        intro hnil
        rw [hnil] at hne
        exact hne rfl
      obtain ⟨e, es, hpivots⟩ := List.exists_cons_of_ne_nil hnonempty
      have he : e ∈ (pages addr).pivots := by
        rw [hpivots]
        exact List.mem_cons_self
      have hchild := ih (by omega) _ (child_mem hle hmem he)
      rw [s.pivot_eq h hle addr hmem e he] at hchild
      obtain ⟨kv, hhead, hkv⟩ := Option.map_eq_some_iff.mp hchild
      obtain ⟨rest, hentries⟩ := List.head?_eq_some_iff.mp hhead
      rw [entriesUnder_succ, hpivots, List.flatMap_cons, hentries]
      exact congrArg some hkv

theorem le_of_mem_entriesUnder {h addr : Nat} (hle : h ≤ (pages rootAddr).height)
    (hmem : addr ∈ nodesOfHeight pages rootAddr h) {k : Key K}
    (hk : (pages addr).keys.head? = some k) :
    (∃ kv ∈ entriesUnder pages h addr, kv.1 = k) ∧ ∀ kv ∈ entriesUnder pages h addr, k ≤ kv.1 := by
  have hhead := s.head_entriesUnder h hle addr hmem
  rw [hk] at hhead
  obtain ⟨first, hfirst, rfl⟩ := Option.map_eq_some_iff.mp hhead
  obtain ⟨rest, hentries⟩ := List.head?_eq_some_iff.mp hfirst
  have hasc := s.entriesUnder_ascending hle hmem
  rw [hentries] at hasc ⊢
  refine ⟨⟨first, List.mem_cons_self, rfl⟩, fun kv hkv => ?_⟩
  rcases List.mem_cons.mp hkv with rfl | hrest
  · exact le_refl _
  · exact ((List.pairwise_cons.mp hasc).1 kv hrest).le

/-! ## The shape -/

theorem separated {h addr : Nat} (hlt : h < (pages rootAddr).height)
    (hmem : addr ∈ nodesOfHeight pages rootAddr (h + 1)) :
    Separated pages h (pages addr).pivots := by
  have hasc := s.entriesUnder_ascending hlt hmem
  rw [entriesUnder_succ] at hasc
  have hpair := (List.pairwise_flatMap.mp hasc).2
  refine hpair.imp_of_mem fun {e e'} he he' hbefore => ?_
  have hfirst := s.le_of_mem_entriesUnder hlt.le (child_mem hlt hmem he)
    (s.pivot_eq h hlt addr hmem e he)
  obtain ⟨⟨kv', hkv', hpivot'⟩, hge⟩ := s.le_of_mem_entriesUnder hlt.le (child_mem hlt hmem he')
    (s.pivot_eq h hlt addr hmem e' he')
  have hbelow : ∀ kv ∈ entriesUnder pages h e.childAddr, kv.1 < e'.pivot := by
    intro kv hkv
    rw [← hpivot']
    exact hbefore kv hkv kv' hkv'
  obtain ⟨⟨kv, hkv, hpivot⟩, -⟩ := hfirst
  refine ⟨?_, hbelow, hge⟩
  rw [← hpivot]
  exact hbelow kv hkv

theorem subtreeShaped (h : Nat) : h ≤ (pages rootAddr).height →
    ∀ addr ∈ nodesOfHeight pages rootAddr h, SubtreeShaped pages h addr := by
  induction h with
  | zero => exact fun hle addr hmem => s.height_eq 0 hle addr hmem
  | succ h ih =>
      intro hle addr hmem
      have hkeys := s.keys_eq (Nat.succ_pos h) hle hmem
      have hne := s.nonempty (h + 1) hle addr hmem
      refine ⟨s.height_eq (h + 1) hle addr hmem, ?_, s.separated hle hmem, ?_, ?_⟩
      · intro hnil
        rw [hkeys, hnil] at hne
        exact hne rfl
      · rintro rfl e he
        have hpivot := s.pivot_eq 0 hle addr hmem e (List.mem_of_mem_tail he)
        have hleaf := child_mem hle hmem (List.mem_of_mem_tail he)
        unfold Node.keys at hpivot
        rw [if_pos (s.height_eq 0 (Nat.zero_le _) _ hleaf), List.head?_map] at hpivot
        exact hpivot
      · intro e he
        exact ih (by omega) _ (child_mem hle hmem he)

theorem wellShaped : WellShaped pages rootAddr := by
  constructor
  · refine s.subtreeShaped _ (le_refl _) rootAddr ?_
    rw [nodesOfHeight_root]
    exact List.mem_singleton_self rootAddr
  · intro _ leaf hleaf hnil
    have hne := s.nonempty 0 (Nat.zero_le _) leaf hleaf
    unfold Node.keys at hne
    rw [if_pos (s.height_eq 0 (Nat.zero_le _) leaf hleaf), hnil] at hne
    exact hne rfl
  · exact s.linked 0 (Nat.zero_le _)
  · exact s.addr_ne_zero 0 (Nat.zero_le _)
  · exact s.contents_ascending

end LevelShaped
end Btree
end TreePass
