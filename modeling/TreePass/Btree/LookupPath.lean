import TreePass.Btree.AsyncLookup
import TreePass.Btree.LookupErasure

/-!
# The path of a lookup

What a descent does from a node on, without the ranks it sums up and apart from what was asked of
the cache before: `path`.  A tree is `Shaped` if heights fall by one on the way down and index
nodes are not empty; there every descent has a path.
-/

namespace TreePass
namespace Btree

variable {K : Type}

/-- What a descent comes to: a node and its warmth, the pages, and what it asked of the cache on
the way, the latest first. -/
structure Path (K : Type) where
  addr : Addr
  isWarm : Bool
  pages : Addr → Page K
  calls : List CacheCall

def Path.after (p : Path K) (calls : List CacheCall) : Path K := { p with calls := p.calls ++ calls }

theorem Path.after_after (p : Path K) (calls calls' : List CacheCall) :
    (p.after calls).after calls' = p.after (calls ++ calls') := by
  rw [after, after, after, List.append_assoc]

theorem Path.after_nil (p : Path K) : p.after [] = p := by
  rw [after, List.append_nil]

/-- The page that was asked for: the warmth it was taken with. -/
def takenWarm (addr : Addr) : List CacheCall → Option Bool
  | [] => none
  | .get a isWarm :: calls => if a = addr then some isWarm else takenWarm addr calls
  | _ :: calls => takenWarm addr calls

theorem takenWarm_release (type : PageType) (addr addr' : Addr) (isWarm : Bool)
    (calls : List CacheCall) :
    takenWarm addr (releaseCall type addr' isWarm :: calls) = takenWarm addr calls := by
  rw [releaseCall]
  by_cases h : (!isWarm && decide (type = .branch)) = true
  · rw [if_pos h]
    rfl
  · rw [if_neg h]
    rfl

theorem takenWarm_get (addr : Addr) (isWarm : Bool) (calls : List CacheCall) :
    takenWarm addr (.get addr isWarm :: calls) = some isWarm := if_pos rfl

theorem releaseCall_eq_iff (type : PageType) (addr : Addr) (isWarm isWarm' : Bool) :
    releaseCall type addr isWarm = releaseCall type addr isWarm' ↔
      (type = .branch → isWarm = isWarm') := by
  cases type <;> cases isWarm <;> cases isWarm' <;> simp [releaseCall]

section Descent

variable [LinearOrder K] (outcomes : LookupOutcomes) (type : PageType) (target : Key K)
  (stopAtHeight : Nat)

/-- What a descent does from a node on that is so many levels above its end. -/
def path : Nat → Addr → Bool → (Addr → Page K) → Option (Path K)
  | 0, addr, isWarm, pages => some ⟨addr, isWarm, pages, []⟩
  | n + 1, addr, isWarm, pages =>
      let k := (pages addr).childIndex target
      match (pages addr).getIndexEntry k with
      | none => none
      | some entry =>
          let child := entry.maskedChildAddr
          let tracked := trackPivot outcomes type pages addr (stopAtHeight + n + 1) k entry isWarm
          (path n child tracked.2.2
            (resetStaleCounts type tracked.2.1 child tracked.1 (decide (0 < n)))).map
              (Path.after · [releaseCall type addr isWarm, .get child tracked.2.2])

theorem path_succ {n : Nat} {addr : Addr} (isWarm : Bool) {pages : Addr → Page K}
    {entry : OndiskIndexEntry K}
    (hentry : (pages addr).getIndexEntry ((pages addr).childIndex target) = some entry) :
    let tracked := trackPivot outcomes type pages addr (stopAtHeight + n + 1)
      ((pages addr).childIndex target) entry isWarm
    path outcomes type target stopAtHeight (n + 1) addr isWarm pages =
      (path outcomes type target stopAtHeight n entry.maskedChildAddr tracked.2.2
        (resetStaleCounts type tracked.2.1 entry.maskedChildAddr tracked.1 (decide (0 < n)))).map
          (Path.after · [releaseCall type addr isWarm, .get entry.maskedChildAddr tracked.2.2]) := by
  rw [path, hentry]

theorem lookupTurns_eq_path (cfg : Config K) (n : Nat) (found : Found) (s : Reader K) :
    (lookupTurns cfg outcomes type target stopAtHeight n found s).map
        (fun r => (⟨r.1.addr, r.1.isWarm, r.2.pages, r.2.calls⟩ : Path K)) =
      (path outcomes type target stopAtHeight n found.addr found.isWarm s.pages).map
        (Path.after · s.calls) := by
  induction n generalizing found s with
  | zero => rfl
  | succ n ih =>
      rw [lookupTurns, path]
      cases (s.pages found.addr).getIndexEntry ((s.pages found.addr).childIndex target) with
      | none => rfl
      | some entry =>
          dsimp only
          rw [ih, Option.map_map]
          congr 1
          funext p
          exact (p.after_after [_, _] s.calls).symm

end Descent

/-! ## Well-shaped trees -/

/-- A tree of height `h`. -/
def Shaped (pages : Addr → Page K) : Nat → Addr → Prop
  | 0, addr => (pages addr).height = 0 ∧ ∀ slot ∈ (pages addr).slots, ∃ e, slot.entry = .leaf e
  | h + 1, addr => (pages addr).height = h + 1 ∧ (pages addr).slots ≠ [] ∧
      ∀ slot ∈ (pages addr).slots, ∃ e, slot.entry = .index e ∧ Shaped pages h e.maskedChildAddr

theorem getIndexEntry_of_slot {hdr : Page K} {k : Nat} {slot : Slot K}
    {e : OndiskIndexEntry K} (hslot : hdr.slots[k]? = some slot) (he : slot.entry = .index e) :
    hdr.getIndexEntry k = some e := by
  rw [Page.getIndexEntry, hslot, Option.map_some, he]

private theorem slot_of_samePage {hdr hdr' : Page K} (hsame : SamePage hdr hdr') {slot' : Slot K}
    (hslot' : slot' ∈ hdr'.slots) :
    ∃ slot ∈ hdr.slots, slot.entry.eraseMeta = slot'.entry.eraseMeta := by
  have hmem : slot'.eraseMeta ∈ hdr.slots.map Slot.eraseMeta := by
    rw [← Page.slots_eraseMeta, hsame, Page.slots_eraseMeta]
    exact List.mem_map_of_mem hslot'
  obtain ⟨slot, hslot, heq⟩ := List.mem_map.mp hmem
  exact ⟨slot, hslot, congrArg Slot.entry heq⟩

theorem Shaped.congr {pages pages' : Addr → Page K} (hsame : SamePages pages pages') {h : Nat}
    {addr : Addr} (hshape : Shaped pages h addr) : Shaped pages' h addr := by
  induction h generalizing addr with
  | zero =>
      refine ⟨(hsame addr).height.symm.trans hshape.1, fun slot' hslot' => ?_⟩
      obtain ⟨slot, hslot, heq⟩ := slot_of_samePage (hsame addr) hslot'
      obtain ⟨e, he⟩ := hshape.2 slot hslot
      rw [he] at heq
      cases hentry : slot'.entry with
      | leaf e' => exact ⟨e', rfl⟩
      | index e' =>
          rw [hentry] at heq
          exact Entry.noConfusion rfl (heq_of_eq heq)
  | succ h ih =>
      obtain ⟨hheight, hne, hindex⟩ := hshape
      refine ⟨(hsame addr).height.symm.trans hheight, fun hnil => hne ?_, fun slot' hslot' => ?_⟩
      · have hmap : (pages addr).slots.map Slot.eraseMeta = [] := by
          rw [← Page.slots_eraseMeta, hsame addr, Page.slots_eraseMeta, hnil, List.map_nil]
        exact List.map_eq_nil_iff.mp hmap
      · obtain ⟨slot, hslot, heq⟩ := slot_of_samePage (hsame addr) hslot'
        obtain ⟨e, he, hchild⟩ := hindex slot hslot
        rw [he] at heq
        cases hentry : slot'.entry with
        | leaf e' =>
            rw [hentry] at heq
            exact Entry.noConfusion rfl (heq_of_eq heq)
        | index e' =>
            rw [hentry] at heq
            have herase : e.eraseMeta = e'.eraseMeta := Entry.index.inj heq
            refine ⟨e', rfl, ?_⟩
            rw [← (same_of_eraseMeta_eq herase).2.1]
            exact ih hchild

section Paths

variable [LinearOrder K] (outcomes : LookupOutcomes) (type : PageType) (target : Key K)
  {stopAtHeight : Nat}

theorem childIndex_lt {hdr : Page K} (hne : hdr.slots ≠ []) :
    hdr.childIndex target < hdr.slots.length := by
  have hpos : 0 < hdr.slots.length := List.length_pos_of_ne_nil hne
  have hsearch : (hdr.findPivot target).1 < hdr.slots.length := Lib.search_lt _ _
  rw [Page.childIndex, Page.numEntries]
  by_cases htop : target = ⊤
  · rw [if_pos htop]
    omega
  · rw [if_neg htop]
    omega

/-- **In a well-shaped tree every descent arrives**, and the tree it leaves is equal up to the
borrowed bytes. -/
theorem Shaped.exists_path (n : Nat) {addr : Addr} (isWarm : Bool) {pages : Addr → Page K}
    (hshape : Shaped pages (stopAtHeight + n) addr) :
    ∃ p, path outcomes type target stopAtHeight n addr isWarm pages = some p ∧
      SamePages pages p.pages ∧ Shaped p.pages stopAtHeight p.addr := by
  induction n generalizing addr isWarm pages with
  | zero => exact ⟨_, rfl, SamePages.refl pages, hshape⟩
  | succ n ih =>
      obtain ⟨-, hne, hindex⟩ := hshape
      have hslot := List.getElem?_eq_getElem (childIndex_lt target hne)
      obtain ⟨entry, he, hchild⟩ := hindex _ (List.getElem_mem (childIndex_lt target hne))
      rw [path_succ outcomes type target stopAtHeight isWarm (getIndexEntry_of_slot hslot he)]
      have htracked := trackPivot_samePages outcomes type pages addr (stopAtHeight + n + 1)
        ((pages addr).childIndex target) entry isWarm
      generalize trackPivot outcomes type pages addr (stopAtHeight + n + 1)
        ((pages addr).childIndex target) entry isWarm = tracked at htracked ⊢
      have hreset := htracked.trans (resetStaleCounts_samePages type tracked.2.1
        entry.maskedChildAddr tracked.1 (decide (0 < n)))
      obtain ⟨p, hp, hsame, hend⟩ := ih tracked.2.2 (hchild.congr hreset)
      refine ⟨p.after [releaseCall type addr isWarm, .get entry.maskedChildAddr tracked.2.2], ?_,
        hreset.trans hsame, hend⟩
      rw [hp, Option.map_some]

theorem exists_leafEntry {hdr : Page K} (hfound : (hdr.findTuple target).2 = true) :
    ∃ e, hdr.getLeafEntry (hdr.findTuple target).1.toNat = some e := by
  have hequal := (Lib.search_found hfound).2
  cases he : hdr.getLeafEntry (hdr.findTuple target).1.toNat with
  | some e => exact ⟨e, rfl⟩
  | none =>
      rw [Page.findTuple] at he
      rw [he] at hequal
      exact Ordering.noConfusion hequal

end Paths

end Btree
end TreePass
