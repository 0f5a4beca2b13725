import TreePass.Btree.Node

/-!
# Well-shaped B-trees

What `btree_verify_node` and the comments of the insertion and iteration code promise of a
quiescent tree: every child is one level below its parent, the pivots of a node strictly increase
and separate the keys of its children, and the leaves form a doubly linked chain that runs
through all keys in increasing order.  From it follows what a lookup finds: the leaf at which the
keys below the target end.
-/

namespace TreePass
namespace Btree

variable {K : Type} (pages : Nat → Node K)

/-- The leaves below a node of a given height, from left to right. -/
def leavesUnder : Nat → Nat → List Nat
  | 0, addr => [addr]
  | h + 1, addr => (pages addr).pivots.flatMap fun e => leavesUnder h e.childAddr

def entriesUnder (h addr : Nat) : List (Key K × Message) :=
  (leavesUnder pages h addr).flatMap fun leaf => (pages leaf).entries

/-- The pages at these addresses are linked in this order, after the page `prev`. -/
def Linked : Nat → List Nat → Prop
  | _, [] => True
  | prev, addr :: rest =>
      (pages addr).prevAddr = prev ∧ (pages addr).nextAddr = rest.headD 0 ∧ Linked addr rest

def leaves (rootAddr : Nat) : List Nat := leavesUnder pages (pages rootAddr).height rootAddr

def chunks (rootAddr : Nat) : List (List (Key K × Message)) :=
  (leaves pages rootAddr).map fun leaf => (pages leaf).entries

def contents (rootAddr : Nat) : List (Key K × Message) := (chunks pages rootAddr).flatten

section Order

variable [LinearOrder K]

/-- The pivots of a node whose children have height `h` increase and separate the children:
every pivot but the first is a lower bound of its child and an upper bound of all before it. -/
def Separated (h : Nat) (es : List (IndexEntry K)) : Prop :=
  es.Pairwise fun e e' => e.pivot < e'.pivot ∧
    (∀ kv ∈ entriesUnder pages h e.childAddr, kv.1 < e'.pivot) ∧
    (∀ kv ∈ entriesUnder pages h e'.childAddr, e'.pivot ≤ kv.1)

/-- Every pivot but the first is the first key of the leaf it leads to. -/
def PivotsAreFirstKeys (es : List (IndexEntry K)) : Prop :=
  ∀ e ∈ es.tail, (pages e.childAddr).entries.head?.map Prod.fst = some e.pivot

def SubtreeShaped : Nat → Nat → Prop
  | 0, addr => (pages addr).height = 0
  | h + 1, addr =>
      (pages addr).height = h + 1 ∧ (pages addr).pivots ≠ [] ∧
      Separated pages h (pages addr).pivots ∧
      (h = 0 → PivotsAreFirstKeys pages (pages addr).pivots) ∧
      ∀ e ∈ (pages addr).pivots, SubtreeShaped h e.childAddr

/-- **Well-shaped trees.** -/
structure WellShaped (rootAddr : Nat) : Prop where
  shaped : SubtreeShaped pages (pages rootAddr).height rootAddr
  /-- Only a tree with a single leaf can have an empty one. -/
  nonempty : 1 < (leaves pages rootAddr).length →
    ∀ leaf ∈ leaves pages rootAddr, (pages leaf).entries ≠ []
  linked : Linked pages 0 (leaves pages rootAddr)
  /-- No page is at address 0, which ends the chain. -/
  addr_ne_zero : 0 ∉ leaves pages rootAddr
  ascending : (contents pages rootAddr).Pairwise fun x y => x.1 < y.1

end Order

variable {pages}

/-! ## The chain of leaves -/

theorem Linked.nextAddr {l : List Nat} : ∀ {prev j addr : Nat}, Linked pages prev l →
    l[j]? = some addr → (pages addr).nextAddr = l[j + 1]?.getD 0 := by
  induction l with
  | nil =>
      intro prev j addr _ h
      simp at h
  | cons a l ih =>
      intro prev j addr hlinked h
      obtain ⟨-, hnext, hrest⟩ := hlinked
      cases j with
      | zero =>
          obtain rfl : a = addr := by simpa using h
          rw [hnext]
          cases l <;> rfl
      | succ j => simpa using ih hrest (by simpa using h)

theorem Linked.prevAddr {l : List Nat} : ∀ {prev j addr : Nat}, Linked pages prev l →
    l[j]? = some addr → (pages addr).prevAddr = if j = 0 then prev else l[j - 1]?.getD 0 := by
  induction l with
  | nil =>
      intro prev j addr _ h
      simp at h
  | cons a l ih =>
      intro prev j addr hlinked h
      obtain ⟨hprev, -, hrest⟩ := hlinked
      cases j with
      | zero =>
          obtain rfl : a = addr := by simpa using h
          rw [if_pos rfl, hprev]
      | succ j =>
          rw [ih hrest (by simpa using h), if_neg (Nat.succ_ne_zero j), Nat.add_sub_cancel]
          cases j with
          | zero => rfl
          | succ j => rfl

theorem Linked.injective {l : List Nat} (hlinked : Linked pages 0 l) (hzero : 0 ∉ l) :
    ∀ {i j addr : Nat}, l[i]? = some addr → l[j]? = some addr → i = j := by
  intro i
  induction i with
  | zero =>
      intro j addr hi hj
      by_contra hne
      have hprev := hlinked.prevAddr hj
      rw [hlinked.prevAddr hi, if_pos rfl, if_neg (Ne.symm hne)] at hprev
      obtain ⟨hlt, -⟩ := List.getElem?_eq_some_iff.mp hj
      rw [List.getElem?_eq_getElem (by omega), Option.getD_some] at hprev
      exact hzero (hprev ▸ List.getElem_mem _)
  | succ i ih =>
      intro j addr hi hj
      have hprev := hlinked.prevAddr hj
      obtain ⟨hlti, -⟩ := List.getElem?_eq_some_iff.mp hi
      obtain ⟨hltj, -⟩ := List.getElem?_eq_some_iff.mp hj
      rw [hlinked.prevAddr hi, if_neg (Nat.succ_ne_zero i), Nat.add_sub_cancel,
        List.getElem?_eq_getElem (by omega), Option.getD_some] at hprev
      by_cases hj₀ : j = 0
      · rw [if_pos hj₀] at hprev
        exact absurd hprev fun h0 => hzero (h0 ▸ List.getElem_mem _)
      · rw [if_neg hj₀, List.getElem?_eq_getElem (by omega), Option.getD_some] at hprev
        have heq := ih (j := j - 1) (List.getElem?_eq_getElem (by omega))
          (by rw [hprev, List.getElem?_eq_getElem])
        omega

theorem chunk_of_leaf {rootAddr j addr : Nat} (hj : (leaves pages rootAddr)[j]? = some addr) :
    (chunks pages rootAddr)[j]? = some (pages addr).entries := by
  rw [chunks, List.getElem?_map, hj]
  rfl

/-! ## Lookups -/

variable [LinearOrder K]

private theorem childIndex_eq_of_top {hdr : Node K} {h : Nat} (hheight : hdr.height = h + 1) :
    childIndex hdr ⊤ = hdr.pivots.length - 1 := by
  simp only [childIndex, if_true, Node.numEntries, hheight, Nat.add_one_ne_zero, if_false]
  omega

private theorem childIndex_eq_of_ne_top {hdr : Node K}
    (hsorted : (hdr.pivots.map IndexEntry.pivot).Pairwise (· < ·)) {x : Key K} (hx : x ≠ ⊤) :
    childIndex hdr x = (hdr.pivots.map IndexEntry.pivot).countP (fun k => decide (k ≤ x)) - 1 := by
  rw [childIndex, if_neg hx, findPivot, findKey_eq hsorted]
  simp only
  omega

private theorem countP_pivots_le (hdr : Node K) (x : Key K) :
    (hdr.pivots.map IndexEntry.pivot).countP (fun k => decide (k ≤ x)) ≤ hdr.pivots.length := by
  simpa using List.countP_le_length (l := hdr.pivots.map IndexEntry.pivot)
    (p := fun k => decide (k ≤ x))

private theorem childIndex_spec {hdr : Node K} {h : Nat} (hheight : hdr.height = h + 1)
    (hne : hdr.pivots ≠ []) (hsorted : (hdr.pivots.map IndexEntry.pivot).Pairwise (· < ·))
    (x : Key K) :
    ∃ front e back, hdr.pivots = front ++ e :: back ∧ childAddr hdr (childIndex hdr x) = e.childAddr ∧
      (front ≠ [] → e.pivot ≤ x) ∧ ∀ e' ∈ back, x < e'.pivot := by
  have hpos : 0 < hdr.pivots.length := List.length_pos_iff.mpr hne
  have hbounds : childIndex hdr x < hdr.pivots.length ∧
      (0 < childIndex hdr x → ∀ e, hdr.pivots[childIndex hdr x]? = some e → e.pivot ≤ x) ∧
      ∀ i e, childIndex hdr x < i → hdr.pivots[i]? = some e → x < e.pivot := by
    by_cases htop : x = ⊤
    · subst htop
      rw [childIndex_eq_of_top hheight]
      refine ⟨by omega, fun _ _ _ => le_top, fun i e hi he => ?_⟩
      have := (List.getElem?_eq_some_iff.mp he).1
      omega
    · have hindex := childIndex_eq_of_ne_top hsorted htop
      have hcount := countP_pivots_le hdr x
      have hrank : ∀ i e, hdr.pivots[i]? = some e → (e.pivot ≤ x ↔
          i < (hdr.pivots.map IndexEntry.pivot).countP fun k => decide (k ≤ x)) := by
        intro i e he
        rw [← (initial_le hsorted x).getElem_iff (x := e.pivot) (by rw [List.getElem?_map, he]; rfl),
          decide_eq_true_eq]
      refine ⟨by omega, fun hlt e he => (hrank _ e he).mpr (by omega), fun i e hi he => ?_⟩
      exact not_le.mp (mt (hrank i e he).mp (by omega))
  obtain ⟨hlt, hlow, hupp⟩ := hbounds
  refine ⟨hdr.pivots.take (childIndex hdr x), hdr.pivots[childIndex hdr x],
    hdr.pivots.drop (childIndex hdr x + 1), ?_, ?_, ?_, ?_⟩
  · rw [← List.drop_eq_getElem_cons hlt, List.take_append_drop]
  · rw [childAddr, List.getElem?_eq_getElem hlt]
    rfl
  · intro hfront
    refine hlow (Nat.pos_of_ne_zero fun hzero => hfront ?_) _ (List.getElem?_eq_getElem hlt)
    rw [hzero, List.take_zero]
  · intro e' he'
    obtain ⟨i, hi⟩ := List.mem_iff_getElem?.mp he'
    rw [List.getElem?_drop] at hi
    exact hupp _ _ (by omega) hi

/-- **A lookup finds the leaf where the keys below the target end**: all keys before it are below
the target, all keys after it above. -/
theorem descend_spec (x : Key K) (h : Nat) :
    ∀ addr, SubtreeShaped pages h addr →
      ∃ front back, leavesUnder pages h addr = front ++ descend pages x h addr :: back ∧
        (∀ leaf ∈ front, ∀ kv ∈ (pages leaf).entries, kv.1 < x) ∧
        ∀ leaf ∈ back, ∀ kv ∈ (pages leaf).entries, x < kv.1 := by
  induction h with
  | zero =>
      intro addr _
      exact ⟨[], [], rfl, by simp, by simp⟩
  | succ h ih =>
      intro addr hshape
      obtain ⟨hheight, hne, hsep, -, hchildren⟩ := hshape
      have hsorted : ((pages addr).pivots.map IndexEntry.pivot).Pairwise (· < ·) :=
        List.pairwise_map.mpr (hsep.imp fun h => h.1)
      obtain ⟨front, e, back, hsplit, hchild, hlow, hupp⟩ := childIndex_spec hheight hne hsorted x
      rw [hsplit] at hsep hchildren
      obtain ⟨hfront, hrest, hcross⟩ := List.pairwise_append.mp hsep
      obtain ⟨hback, -⟩ := List.pairwise_cons.mp hrest
      obtain ⟨front', back', hunder, hbelow, habove⟩ := ih e.childAddr (hchildren e (by simp))
      refine ⟨(front.flatMap fun e => leavesUnder pages h e.childAddr) ++ front',
        back' ++ back.flatMap fun e => leavesUnder pages h e.childAddr, ?_, ?_, ?_⟩
      · rw [leavesUnder, descend, hchild, hsplit, List.flatMap_append, List.flatMap_cons, hunder]
        simp only [List.append_assoc, List.cons_append]
      · intro leaf hleaf kv hkv
        rcases List.mem_append.mp hleaf with hleaf | hleaf
        · -- A leaf under an earlier child lies below the pivot the lookup followed.
          obtain ⟨e₀, he₀, hmem⟩ := List.mem_flatMap.mp hleaf
          have hlt := (hcross e₀ he₀ e (by simp)).2.1 kv (List.mem_flatMap.mpr ⟨leaf, hmem, hkv⟩)
          exact hlt.trans_le (hlow (List.ne_nil_of_mem he₀))
        · exact hbelow leaf hleaf kv hkv
      · intro leaf hleaf kv hkv
        rcases List.mem_append.mp hleaf with hleaf | hleaf
        · exact habove leaf hleaf kv hkv
        · obtain ⟨e', he', hmem⟩ := List.mem_flatMap.mp hleaf
          have hle := (hback e' he').2.2 kv (List.mem_flatMap.mpr ⟨leaf, hmem, hkv⟩)
          exact (hupp e' he').trans_le hle

private theorem childIndex_mono {hdr : Node K} {h : Nat} (hheight : hdr.height = h + 1)
    (hne : hdr.pivots ≠ []) (hsorted : (hdr.pivots.map IndexEntry.pivot).Pairwise (· < ·))
    {x y : Key K} (hxy : x ≤ y) :
    childIndex hdr x ≤ childIndex hdr y ∧ childIndex hdr y < hdr.pivots.length := by
  have hpos : 0 < hdr.pivots.length := List.length_pos_iff.mpr hne
  have hx := countP_pivots_le hdr x
  have hy := countP_pivots_le hdr y
  by_cases hytop : y = ⊤
  · subst hytop
    rw [childIndex_eq_of_top hheight]
    by_cases hxtop : x = ⊤
    · rw [hxtop, childIndex_eq_of_top hheight]
      omega
    · rw [childIndex_eq_of_ne_top hsorted hxtop]
      omega
  · have hmono : (hdr.pivots.map IndexEntry.pivot).countP (fun k => decide (k ≤ x)) ≤
        (hdr.pivots.map IndexEntry.pivot).countP fun k => decide (k ≤ y) :=
      List.countP_mono_left fun k _ hk => by simpa using (of_decide_eq_true hk).trans hxy
    rw [childIndex_eq_of_ne_top hsorted hytop,
      childIndex_eq_of_ne_top hsorted fun hxtop => hytop (top_le_iff.mp (hxtop ▸ hxy))]
    omega

theorem descend_mono {x y : Key K} (hxy : x ≤ y) (h : Nat) :
    ∀ addr, SubtreeShaped pages h addr →
      ∃ i j : Nat, i ≤ j ∧ (leavesUnder pages h addr)[i]? = some (descend pages x h addr) ∧
        (leavesUnder pages h addr)[j]? = some (descend pages y h addr) := by
  induction h with
  | zero =>
      intro addr _
      exact ⟨0, 0, le_refl _, rfl, rfl⟩
  | succ h ih =>
      intro addr hshape
      obtain ⟨hheight, hne, hsep, -, hchildren⟩ := hshape
      have hsorted : ((pages addr).pivots.map IndexEntry.pivot).Pairwise (· < ·) :=
        List.pairwise_map.mpr (hsep.imp fun h => h.1)
      obtain ⟨hindex, hlt⟩ := childIndex_mono hheight hne hsorted hxy
      -- The leaves of each child are one chunk of the leaves of the node.
      let under := (pages addr).pivots.map fun e => leavesUnder pages h e.childAddr
      have hflat : leavesUnder pages (h + 1) addr = under.flatten := List.flatMap_def ..
      have hchunk : ∀ z, childIndex (pages addr) z < (pages addr).pivots.length →
          under[childIndex (pages addr) z]? =
            some (leavesUnder pages h (childAddr (pages addr) (childIndex (pages addr) z))) ∧
          SubtreeShaped pages h (childAddr (pages addr) (childIndex (pages addr) z)) := by
        intro z hz
        rw [List.getElem?_map, List.getElem?_eq_getElem hz, childAddr, List.getElem?_eq_getElem hz]
        exact ⟨rfl, hchildren _ (List.getElem_mem hz)⟩
      obtain ⟨hcx, hsx⟩ := hchunk x (hindex.trans_lt hlt)
      obtain ⟨hcy, hsy⟩ := hchunk y hlt
      have hat : ∀ {z i : Nat} {ls : List Nat} {leaf : Nat}, under[z]? = some ls → ls[i]? = some leaf →
          under.flatten[Lib.offset under z + i]? = some leaf := by
        intro z i ls leaf hc hleaf
        rw [Lib.getElem?_flatten hc (List.getElem?_eq_some_iff.mp hleaf).1, hleaf]
      rw [hflat, descend, descend]
      rcases Nat.eq_or_lt_of_le hindex with heq | hlt'
      · obtain ⟨i, j, hij, hi, hj⟩ := ih _ hsx
        rw [← heq]
        exact ⟨_, _, Nat.add_le_add_left hij _, hat hcx hi, hat hcx hj⟩
      · obtain ⟨i, -, -, hi, -⟩ := ih _ hsx
        obtain ⟨-, j, -, -, hj⟩ := ih _ hsy
        refine ⟨_, _, ?_, hat hcx hi, hat hcy hj⟩
        have hoff := Lib.offset_succ hcx
        have hmono := Lib.offset_le_of_le under (Nat.succ_le_of_lt hlt')
        have hilt := (List.getElem?_eq_some_iff.mp hi).1
        rw [Nat.succ_eq_add_one] at hmono
        omega

private theorem height_of_mem_leavesUnder (h : Nat) : ∀ addr, SubtreeShaped pages h addr →
    ∀ leaf ∈ leavesUnder pages h addr, (pages leaf).height = 0 := by
  induction h with
  | zero =>
      intro addr hshape leaf hleaf
      obtain rfl : leaf = addr := by simpa [leavesUnder] using hleaf
      exact hshape
  | succ h ih =>
      intro addr hshape leaf hleaf
      obtain ⟨e, he, hmem⟩ := List.mem_flatMap.mp hleaf
      exact ih e.childAddr (hshape.2.2.2.2 e he) leaf hmem

/-- The keys below `x` end in chunk `j`. -/
structure EndsIn (cs : List (List (Key K × Message))) (x : Key K) (j : Nat) : Prop where
  before : ∀ i c, i < j → cs[i]? = some c → ∀ kv ∈ c, kv.1 < x
  after : ∀ i c, j < i → cs[i]? = some c → ∀ kv ∈ c, x < kv.1

namespace WellShaped

variable {rootAddr : Nat} (h : WellShaped pages rootAddr)

include h

theorem lookupNode_spec (x : Key K) :
    ∃ j, (leaves pages rootAddr)[j]? = some (lookupNode pages rootAddr x 0) ∧
      EndsIn (chunks pages rootAddr) x j := by
  obtain ⟨front, back, hsplit, hbelow, habove⟩ := descend_spec x _ _ h.shaped
  have hleaves : leaves pages rootAddr = front ++ lookupNode pages rootAddr x 0 :: back := hsplit
  refine ⟨front.length, by simp [hleaves], ?_, ?_⟩
  · intro i c hi hc kv hkv
    rw [chunks, List.getElem?_map, hleaves, List.getElem?_append_left hi] at hc
    obtain ⟨leaf, hleaf, rfl⟩ := Option.map_eq_some_iff.mp hc
    exact hbelow leaf (List.mem_of_getElem? hleaf) kv hkv
  · intro i c hi hc kv hkv
    rw [chunks, List.getElem?_map, hleaves, List.getElem?_append_right hi.le] at hc
    obtain ⟨leaf, hleaf, rfl⟩ := Option.map_eq_some_iff.mp hc
    obtain ⟨d, hd⟩ : ∃ d, i - front.length = d + 1 := ⟨i - front.length - 1, by omega⟩
    rw [hd, List.getElem?_cons_succ] at hleaf
    exact habove leaf (List.mem_of_getElem? hleaf) kv hkv

theorem ne_zero_of_getElem {j addr : Nat} (hj : (leaves pages rootAddr)[j]? = some addr) : addr ≠ 0 := by
  rintro rfl
  exact h.addr_ne_zero (List.mem_of_getElem? hj)

theorem leaf_injective {i j addr : Nat} (hi : (leaves pages rootAddr)[i]? = some addr)
    (hj : (leaves pages rootAddr)[j]? = some addr) : i = j :=
  h.linked.injective h.addr_ne_zero hi hj

theorem lookupNode_mono {x y : Key K} (hxy : x ≤ y) {i j : Nat}
    (hi : (leaves pages rootAddr)[i]? = some (lookupNode pages rootAddr x 0))
    (hj : (leaves pages rootAddr)[j]? = some (lookupNode pages rootAddr y 0)) : i ≤ j := by
  obtain ⟨i', j', hle, hi', hj'⟩ := descend_mono hxy _ _ h.shaped
  obtain rfl := h.leaf_injective hi hi'
  obtain rfl := h.leaf_injective hj hj'
  exact hle

theorem chunk_ascending {j : Nat} {c : List (Key K × Message)}
    (hc : (chunks pages rootAddr)[j]? = some c) :
    c.Pairwise fun (x y : Key K × Message) => x.1 < y.1 :=
  (List.pairwise_flatten.mp h.ascending).1 c (List.mem_of_getElem? hc)

theorem leaf_height {j addr : Nat} (hj : (leaves pages rootAddr)[j]? = some addr) :
    (pages addr).height = 0 :=
  height_of_mem_leavesUnder _ _ h.shaped addr (List.mem_of_getElem? hj)

theorem leaf_numEntries {j addr : Nat} (hj : (leaves pages rootAddr)[j]? = some addr) :
    (pages addr).numEntries = (pages addr).entries.length := by
  rw [Node.numEntries, if_pos (h.leaf_height hj), Node.length_entries]

theorem leaf_nonempty {i j addr : Nat} (hne : i ≠ j) (hi : i < (leaves pages rootAddr).length)
    (hj : (leaves pages rootAddr)[j]? = some addr) : 0 < (pages addr).entries.length := by
  obtain ⟨hlt, -⟩ := List.getElem?_eq_some_iff.mp hj
  exact List.length_pos_iff.mpr (h.nonempty (by omega) addr (List.mem_of_getElem? hj))

end WellShaped
end Btree
end TreePass
