import TreePass.Btree.RawPageRebuild

/-!
# The operations of a page and of its list of entries

The functions that change a page, as operations with their arguments, and what each of them is for
on the list of entries the page stands for.

* `PageOp.perform` runs the function of `btree.c` on the memory of a page.
* `PageOp.onEntries` is the operation on the list.
* `PageOp.simulated`: where the memory holds a page, the function leaves memory that holds the list
  the operation makes of it, returns `FALSE` and leaves everything as it was, or, in the right half
  of a split alone, fails the assertion that the update fits.
-/

namespace TreePass
namespace Btree

open Lib

variable {K : Type}

/-- What a page is used for. -/
inductive PageKind where
  | leaf
  | index
  deriving DecidableEq, Repr

def Entry.kind : Entry K → PageKind
  | .leaf _ => .leaf
  | .index _ => .index

theorem Entry.kind_eq_leaf (entry : Entry K) : entry.kind = .leaf ↔ ∃ e, entry = .leaf e := by
  cases entry <;> simp [Entry.kind]

theorem Entry.kind_eq_index (entry : Entry K) : entry.kind = .index ↔ ∃ e, entry = .index e := by
  cases entry <;> simp [Entry.kind]

@[simp] theorem Entry.kind_maskAddr (entry : Entry K) : entry.maskAddr.kind = entry.kind := by
  cases entry <;> rfl

/-- The operations on the entries of a page.  A page that is new is given with what its memory
holds. -/
inductive PageOp (K : Type) where
  | setLeafEntry (k : Nat) (newKey : K) (newMessage : Message)
  | insertLeafEntry (k : Nat) (newKey : K) (newMessage : Message)
  | incorporate (spec : LeafIncorporateSpec K)
  | truncateLeaf (targetEntries : Nat)
  | defragmentLeaf (spec : LeafIncorporateSpec K)
  | splitLeafRight (memory : PageMemory K) (leftAddr : Addr) (spec : LeafIncorporateSpec K)
      (plan : LeafSplittingPlan)
  | splitLeafLeft (spec : LeafIncorporateSpec K) (plan : LeafSplittingPlan) (rightAddr : Addr)
  | setIndexEntry (k : Nat) (newPivotKey : Key K) (newAddr : Addr) (stats : PivotStats)
  | insertIndexEntry (k : Nat) (newPivotKey : Key K) (newAddr : Addr) (stats : PivotStats)
  | truncateIndex (targetEntries : Nat)
  | defragmentIndex
  | splitIndexRight (memory : PageMemory K) (targetLeftEntries : Nat)

/-- What a function leaves: what it returns, where `void` counts as `TRUE`, the page, and the
specification if it has one. -/
structure Outcome (K : Type) where
  returned : Bool
  page : RawPage K
  spec : Option (LeafIncorporateSpec K)

namespace PageOp

def kind : PageOp K → PageKind
  | setLeafEntry .. | insertLeafEntry .. | incorporate .. | truncateLeaf .. | defragmentLeaf ..
  | splitLeafRight .. | splitLeafLeft .. => .leaf
  | setIndexEntry .. | insertIndexEntry .. | truncateIndex .. | defragmentIndex
  | splitIndexRight .. => .index

/-- What the callers of a function promise of its arguments on a page of `n` entries: the place of
an entry is a place of the table. -/
def Legal (n : Nat) : PageOp K → Prop
  | setLeafEntry k _ _ | insertLeafEntry k _ _ => k ≤ n
  | setIndexEntry k _ _ _ | insertIndexEntry k _ _ _ => k ≤ n
  | incorporate spec => spec.Within n
  | truncateLeaf targetEntries | truncateIndex targetEntries => targetEntries ≤ n
  | defragmentLeaf _ | defragmentIndex => True
  | splitLeafRight _ _ spec plan => plan.splitIdx ≤ n ∧
      (plan.insertionGoesLeft = false → plan.splitIdx ≤ spec.idx ∧ spec.Within n)
  | splitLeafLeft _ plan _ => plan.splitIdx ≤ n
  | splitIndexRight _ targetLeftEntries => targetLeftEntries ≤ n

section Perform

variable (cfg : Config K) (hdr : RawPage K)

def perform : PageOp K → Except PageFault (Outcome K)
  | setLeafEntry k newKey newMessage => do
      let r ← hdr.setLeafEntry cfg k newKey newMessage
      .ok ⟨r.1, r.2, none⟩
  | insertLeafEntry k newKey newMessage => do
      let r ← hdr.insertLeafEntry cfg k newKey newMessage
      .ok ⟨r.1, r.2, none⟩
  | incorporate spec => do
      let r ← hdr.tryPerformLeafIncorporateSpec cfg spec
      .ok ⟨r.1.isSome, r.2, some spec⟩
  | truncateLeaf targetEntries => do
      let r ← hdr.truncateLeaf cfg targetEntries
      .ok ⟨true, r, none⟩
  | defragmentLeaf spec => do
      let r ← hdr.defragmentLeaf cfg spec
      .ok ⟨true, r.1, some r.2⟩
  | splitLeafRight memory leftAddr spec plan => do
      let r ← hdr.splitLeafBuildRightNode cfg memory leftAddr spec plan
      .ok ⟨true, r.1, some r.2⟩
  | splitLeafLeft spec plan rightAddr => do
      let r ← hdr.splitLeafCleanupLeftNode cfg spec plan rightAddr
      .ok ⟨true, r.1, some r.2⟩
  | setIndexEntry k newPivotKey newAddr stats => do
      let r ← hdr.setIndexEntry cfg k newPivotKey newAddr stats
      .ok ⟨r.1, r.2, none⟩
  | insertIndexEntry k newPivotKey newAddr stats => do
      let r ← hdr.insertIndexEntry cfg k newPivotKey newAddr stats
      .ok ⟨r.1, r.2, none⟩
  | truncateIndex targetEntries => do
      let r ← hdr.truncateIndex cfg targetEntries
      .ok ⟨true, r, none⟩
  | defragmentIndex => do
      let r ← hdr.defragmentIndex cfg
      .ok ⟨true, r, none⟩
  | splitIndexRight memory targetLeftEntries => do
      let r ← hdr.splitIndexBuildRightNode cfg memory targetLeftEntries
      .ok ⟨true, r, none⟩

/-- The update of a split goes right, and the right half has no room for it. -/
def Overflows : PageOp K → Prop
  | splitLeafRight memory leftAddr spec plan => plan.insertionGoesLeft = false ∧
      ∃ right spec',
        hdr.splitLeafBuildRightNode cfg memory leftAddr spec ⟨plan.splitIdx, true⟩ =
          .ok (right, spec') ∧
        right.canPerformLeafIncorporateSpec cfg { spec' with idx := spec.idx - plan.splitIdx } =
          .ok false
  | _ => False

end Perform

/-! ## Lists of entries -/

/-- Insert an element at place `k`. -/
def insertAt {α : Type*} (k : Nat) (a : α) (l : List α) : List α := l.take k ++ a :: l.drop k

/-- What an operation is for: what becomes of the list of entries, with the child addresses as they
are read.  `after` is the specification that the function leaves. -/
def onEntries (after : Option (LeafIncorporateSpec K)) (l : List (Entry K)) :
    PageOp K → List (Entry K)
  | setLeafEntry k newKey newMessage => Page.setAt k (.leaf ⟨newKey, newMessage⟩) l
  | insertLeafEntry k newKey newMessage => insertAt k (.leaf ⟨newKey, newMessage⟩) l
  | incorporate spec =>
      if spec.oldEntryState = .stillExists then Page.setAt spec.idx spec.newEntry l
      else insertAt spec.idx spec.newEntry l
  | truncateLeaf targetEntries => l.take targetEntries
  | defragmentLeaf spec => spec.kept 0 l
  | splitLeafRight _ _ spec plan =>
      let moved := spec.kept plan.splitIdx (l.drop plan.splitIdx)
      if plan.insertionGoesLeft then moved
      else insertAt (spec.idx - plan.splitIdx) spec.newEntry moved
  | splitLeafLeft spec plan _ =>
      -- the function tells by the specification whether it has left out the old entry
      if (after.map (·.oldEntryState)) = some .stillExists then l.take plan.splitIdx
      else spec.kept 0 (l.take plan.splitIdx)
  | setIndexEntry k newPivotKey newAddr stats =>
      Page.setAt k (Entry.index ⟨⟨newAddr, stats⟩, newPivotKey⟩).maskAddr l
  | insertIndexEntry k newPivotKey newAddr stats =>
      insertAt k (Entry.index ⟨⟨newAddr, stats⟩, newPivotKey⟩).maskAddr l
  | truncateIndex targetEntries => l.take targetEntries
  | defragmentIndex => l
  | splitIndexRight _ targetLeftEntries => l.drop targetLeftEntries

theorem map_insertAt {α β : Type*} (f : α → β) (k : Nat) (a : α) (l : List α) :
    (insertAt k a l).map f = insertAt k (f a) (l.map f) := by
  rw [insertAt, insertAt, List.map_append, List.map_cons, List.map_take, List.map_drop]

theorem map_applyTo (spec : LeafIncorporateSpec K) (l : List (Entry K)) :
    (spec.applyTo l).map Entry.maskAddr =
      if spec.oldEntryState = .stillExists
      then Page.setAt spec.idx spec.newEntry (l.map Entry.maskAddr)
      else insertAt spec.idx spec.newEntry (l.map Entry.maskAddr) := by
  rw [LeafIncorporateSpec.applyTo]
  cases spec.oldEntryState with
  | stillExists => exact Page.map_setAt _ _ _ _
  | didNotExist => exact map_insertAt _ _ _ _
  | hasBeenRemoved => exact map_insertAt _ _ _ _

theorem onEntries_kind {op : PageOp K} {after : Option (LeafIncorporateSpec K)}
    {l : List (Entry K)} (hl : ∀ entry ∈ l, entry.kind = op.kind) :
    ∀ entry ∈ op.onEntries after l, entry.kind = op.kind := by
  have hset : ∀ {k : Nat} {new : Entry K} {l : List (Entry K)} {t : PageKind}, new.kind = t →
      (∀ entry ∈ l, entry.kind = t) → ∀ entry ∈ Page.setAt k new l, entry.kind = t := by
    intro k new l t hnew hl entry hentry
    rw [Page.setAt] at hentry
    split at hentry
    · rcases List.mem_or_eq_of_mem_set hentry with hold | rfl
      · exact hl entry hold
      · exact hnew
    · rcases List.mem_append.mp hentry with hold | hlast
      · exact hl entry hold
      · rw [List.mem_singleton.mp hlast]
        exact hnew
  have hinsert : ∀ {k : Nat} {new : Entry K} {l : List (Entry K)} {t : PageKind}, new.kind = t →
      (∀ entry ∈ l, entry.kind = t) → ∀ entry ∈ insertAt k new l, entry.kind = t := by
    intro k new l t hnew hl entry hentry
    rw [insertAt] at hentry
    rcases List.mem_append.mp hentry with hfront | hrest
    · exact hl entry (List.mem_of_mem_take hfront)
    · rcases List.mem_cons.mp hrest with rfl | hback
      · exact hnew
      · exact hl entry (List.mem_of_mem_drop hback)
  intro entry hentry
  cases op with
  | setLeafEntry k newKey newMessage => exact hset rfl hl entry hentry
  | insertLeafEntry k newKey newMessage => exact hinsert rfl hl entry hentry
  | incorporate spec =>
      rw [onEntries] at hentry
      split at hentry
      · exact hset rfl hl entry hentry
      · exact hinsert rfl hl entry hentry
  | truncateLeaf targetEntries => exact hl entry (List.mem_of_mem_take hentry)
  | defragmentLeaf spec => exact hl entry ((spec.kept_sublist _ _).subset hentry)
  | splitLeafRight memory leftAddr spec plan =>
      have hmoved : ∀ entry ∈ spec.kept plan.splitIdx (l.drop plan.splitIdx),
          entry.kind = .leaf := fun entry hentry =>
        hl entry (List.mem_of_mem_drop ((spec.kept_sublist _ _).subset hentry))
      rw [onEntries] at hentry
      split at hentry
      · exact hmoved entry hentry
      · exact hinsert rfl hmoved entry hentry
  | splitLeafLeft spec plan rightAddr =>
      rw [onEntries] at hentry
      split at hentry
      · exact hl entry (List.mem_of_mem_take hentry)
      · exact hl entry (List.mem_of_mem_take ((spec.kept_sublist _ _).subset hentry))
  | setIndexEntry k newPivotKey newAddr stats => exact hset rfl hl entry hentry
  | insertIndexEntry k newPivotKey newAddr stats => exact hinsert rfl hl entry hentry
  | truncateIndex targetEntries => exact hl entry (List.mem_of_mem_take hentry)
  | defragmentIndex => exact hl entry hentry
  | splitIndexRight memory targetLeftEntries => exact hl entry (List.mem_of_mem_drop hentry)

theorem kept_of_stillExists {α : Type*} {spec : LeafIncorporateSpec K} {l : List α}
    (hafter : (spec.afterDropping 0 l.length).oldEntryState = .stillExists) : spec.kept 0 l = l := by
  rw [LeafIncorporateSpec.afterDropping] at hafter
  rw [LeafIncorporateSpec.kept]
  split
  next hold =>
    have hout : ¬ spec.idx < l.length := fun hlt => by
      rw [if_pos ⟨hold.1, hold.2, hlt⟩] at hafter
      cases hafter
    rw [Nat.sub_zero, List.eraseIdx_of_length_le (not_lt.mp hout)]
  next => rfl

end PageOp

/-! ## Every operation does what it is for -/

def Page.logical (q : Page K) : List (Entry K) := q.entries.map Entry.maskAddr

/-- What an operation may lead to on memory that holds the page `q`. -/
inductive PageOp.Simulated (cfg : Config K) (op : PageOp K) (p : RawPage K) (q : Page K) : Prop
  | done {o : Outcome K} {q' : Page K} (hrun : op.perform cfg p = .ok o) (hreturned : o.returned = true)
      (hholds : o.page.Holds q') (hplaced : q'.Placed cfg)
      (hlist : q'.logical = op.onEntries o.spec q.logical)
  | refused {o : Outcome K} (hrun : op.perform cfg p = .ok o) (hreturned : o.returned = false)
      (hpage : o.page = p)
  | overflow (hrun : op.perform cfg p = .error .asserts) (hover : op.Overflows cfg p)

namespace RawPage

variable {cfg : Config K} {p : RawPage K} {q : Page K}

private theorem Simulates.simulated {r : Except PageFault (Bool × RawPage K)} {o : Option (Page K)}
    (h : Simulates r p o) {op : PageOp K}
    (hrun : op.perform cfg p = r.bind fun r => .ok ⟨r.1, r.2, none⟩)
    (hsome : ∀ q', o = some q' → q'.Placed cfg ∧ q'.logical = op.onEntries none q.logical) :
    op.Simulated cfg p q := by
  obtain ⟨x, rfl, hx⟩ := h
  cases o with
  | none =>
      obtain rfl := hx
      exact .refused hrun rfl rfl
  | some q' =>
      obtain ⟨p', rfl, hp'⟩ := hx
      obtain ⟨hplaced, hlist⟩ := hsome q' rfl
      exact .done hrun rfl hp' hplaced hlist

section Leaf

variable (h : p.Holds q) (hq : q.Placed cfg) (hleaf : q.IsLeaf)

include h hq hleaf

theorem Holds.simulated_setLeafEntry {k : Nat} (hk : k ≤ q.numEntries) (newKey : K)
    (newMessage : Message) : (PageOp.setLeafEntry k newKey newMessage).Simulated cfg p q := by
  refine (h.setLeafEntry hq hleaf hk newKey newMessage).simulated rfl fun q' hq' => ?_
  obtain ⟨hplaced, hentries⟩ := hq.setLeafEntry hk hq'
  refine ⟨hplaced, ?_⟩
  rw [Page.logical, hentries, Page.map_setAt]
  rfl

theorem Holds.simulated_insertLeafEntry {k : Nat} (hk : k ≤ q.numEntries) (newKey : K)
    (newMessage : Message) : (PageOp.insertLeafEntry k newKey newMessage).Simulated cfg p q := by
  refine (h.insertLeafEntry hq hleaf hk newKey newMessage).simulated rfl fun q' hq' => ?_
  obtain ⟨hplaced, hentries⟩ := hq.insertLeafEntry hq'
  refine ⟨hplaced, ?_⟩
  rw [Page.logical, hentries]
  exact PageOp.map_insertAt Entry.maskAddr k _ q.entries

theorem Holds.simulated_incorporate {spec : LeafIncorporateSpec K}
    (hspec : spec.Within q.numEntries) :
    (PageOp.incorporate spec).Simulated cfg p q := by
  rcases h.tryPerform hq hleaf hspec.1 with ⟨p', q', generation, hraw, hpage, hp'⟩ | ⟨hraw, hpage⟩
  · obtain ⟨hplaced, hentries, -, -⟩ := hq.tryPerform hspec.2 hpage
    refine .done (o := ⟨true, p', some spec⟩) ?_ rfl hp' hplaced ?_
    · rw [PageOp.perform, hraw]
      rfl
    · rw [Page.logical, hentries, PageOp.map_applyTo]
      rfl
  · refine .refused (o := ⟨false, p, some spec⟩) ?_ rfl rfl
    rw [PageOp.perform, hraw]
    rfl

omit hleaf in
theorem Holds.simulated_truncateLeaf {targetEntries : Nat} (ht : targetEntries ≤ q.numEntries) :
    (PageOp.truncateLeaf targetEntries).Simulated cfg p q := by
  obtain ⟨p', hraw, hp'⟩ := h.truncateLeaf cfg ht
  obtain ⟨hplaced, hentries⟩ := hq.truncateLeaf targetEntries
  refine .done (o := ⟨true, p', none⟩) ?_ rfl hp' hplaced ?_
  · rw [PageOp.perform, hraw]
    rfl
  · rw [Page.logical, hentries, List.map_take]
    rfl

theorem Holds.simulated_defragmentLeaf (spec : LeafIncorporateSpec K) :
    (PageOp.defragmentLeaf spec).Simulated cfg p q := by
  obtain ⟨p', hraw, hp'⟩ := h.defragmentLeaf hq hleaf spec
  obtain ⟨hplaced, hentries, -⟩ := hq.defragmentLeaf hleaf spec
  refine .done (o := ⟨true, p', some (q.defragmentLeaf cfg spec).2⟩) ?_ rfl hp' hplaced ?_
  · rw [PageOp.perform, hraw]
    rfl
  · rw [Page.logical, hentries, spec.map_kept]
    rfl

theorem Holds.simulated_splitLeafRight (memory : PageMemory K) (leftAddr : Addr)
    {spec : LeafIncorporateSpec K} {plan : LeafSplittingPlan}
    (hlegal : (PageOp.splitLeafRight memory leftAddr spec plan).Legal q.numEntries) :
    (PageOp.splitLeafRight memory leftAddr spec plan).Simulated cfg p q := by
  obtain ⟨hplaced, hentries, -⟩ := hq.splitLeafRightEntries hleaf leftAddr spec plan
  have hmoved : (q.splitLeafRightEntries cfg leftAddr spec plan).logical =
      spec.kept plan.splitIdx (q.logical.drop plan.splitIdx) := by
    rw [Page.logical, hentries, spec.map_kept, List.map_drop]
    rfl
  cases hplan : plan.insertionGoesLeft with
  | true =>
      obtain ⟨p', hraw, hp'⟩ :=
        h.splitLeafBuildRightNode_left hq hleaf memory leftAddr spec hlegal.1 hplan
      refine .done (o := ⟨true, p', some (spec.afterDropping plan.splitIdx q.numEntries)⟩) ?_ rfl
        hp' hplaced ?_
      · rw [PageOp.perform, hraw]
        rfl
      · rw [hmoved, PageOp.onEntries, hplan]
        rfl
  | false =>
      obtain ⟨hsplit, hspec⟩ := hlegal.2 hplan
      let dropped := spec.afterDropping plan.splitIdx q.numEntries
      let moved : LeafIncorporateSpec K := { dropped with idx := spec.idx - plan.splitIdx }
      have hgone : moved.oldEntryState ≠ .stillExists :=
        hspec.afterDropping_ne_stillExists hsplit
      have hentry : moved.newEntry = spec.newEntry := spec.newEntry_afterDropping _ _
      let toLeft : LeafSplittingPlan := ⟨plan.splitIdx, true⟩
      obtain ⟨right, hleft, hright⟩ := h.splitLeafBuildRightNode_left hq hleaf memory leftAddr spec
        (show toLeft.splitIdx ≤ _ from hlegal.1) rfl
      have hrightLeaf : (q.splitLeafRightEntries cfg leftAddr spec plan).IsLeaf :=
        fun entry hentry => by
          rw [hentries] at hentry
          exact hleaf entry (List.mem_of_mem_drop ((spec.kept_sublist _ _).subset hentry))
      rcases h.splitLeafBuildRightNode_right hq hleaf memory leftAddr hsplit hspec hplan
        with ⟨p', q', generation, hraw, hpage, hp'⟩ | ⟨hraw, hpage⟩
      · obtain ⟨hplaced', hentries', -, -⟩ :=
          hplaced.tryPerform (fun hstill => absurd hstill hgone) hpage
        refine .done (o := ⟨true, p', some moved⟩) ?_ rfl hp' hplaced' ?_
        · rw [PageOp.perform, hraw]
          rfl
        · rw [Page.logical, hentries', PageOp.map_applyTo, if_neg hgone]
          change PageOp.insertAt (spec.idx - plan.splitIdx) moved.newEntry
            (Page.logical _) = _
          rw [hmoved, hentry, PageOp.onEntries, hplan]
          rfl
      · refine .overflow ?_ ⟨hplan, right, _, hleft, ?_⟩
        · rw [PageOp.perform, hraw]
          rfl
        · have hcan : Page.canPerformLeafIncorporateSpec cfg
              (q.splitLeafRightEntries cfg leftAddr spec plan) moved = false := by
            rw [← Bool.not_eq_true, Page.canPerform_iff fun hstill => absurd hstill hgone, hpage]
            rintro ⟨r, hr⟩
            cases hr
          exact (hright.canPerform hrightLeaf moved).trans (congrArg Except.ok hcan)

theorem Holds.simulated_splitLeafLeft (spec : LeafIncorporateSpec K) {plan : LeafSplittingPlan}
    (rightAddr : Addr) (hsplit : plan.splitIdx ≤ q.numEntries) :
    (PageOp.splitLeafLeft spec plan rightAddr).Simulated cfg p q := by
  obtain ⟨p', hraw, hp'⟩ := h.splitLeafCleanupLeftNode hq hleaf spec rightAddr hsplit
  obtain ⟨hplaced, hentries⟩ := hq.splitLeafLeftEntries plan rightAddr
  have hlogical : (q.splitLeafLeftEntries cfg plan rightAddr).logical =
      q.logical.take plan.splitIdx := by
    rw [Page.logical, hentries, List.map_take]
    rfl
  have hleft : (q.splitLeafLeftEntries cfg plan rightAddr).IsLeaf := fun entry hentry => by
    rw [hentries] at hentry
    exact hleaf entry (List.mem_of_mem_take hentry)
  have hrun : (PageOp.splitLeafLeft spec plan rightAddr).perform cfg p =
      .ok ⟨true, p', some (q.splitLeafCleanupLeftNode cfg spec plan rightAddr).2⟩ := by
    rw [PageOp.perform, hraw]
    rfl
  refine .done hrun rfl hp' ?_ ?_
  · rw [Page.splitLeafCleanupLeftNode]
    split
    · exact (hplaced.defragmentLeaf hleft spec).1
    · exact hplaced
  · rw [Page.splitLeafCleanupLeftNode, PageOp.onEntries, ← hlogical]
    split
    next =>
      have hdrop : (q.splitLeafLeftEntries cfg plan rightAddr).numEntries =
          (q.splitLeafLeftEntries cfg plan rightAddr).logical.length := by
        rw [Page.logical, List.length_map, Page.length_entries]
      have hlist : ((q.splitLeafLeftEntries cfg plan rightAddr).defragmentLeaf cfg spec).1.logical =
          spec.kept 0 (q.splitLeafLeftEntries cfg plan rightAddr).logical := by
        rw [Page.logical, (hplaced.defragmentLeaf hleft spec).2.1, spec.map_kept]
        rfl
      split
      next hafter =>
        change some (spec.afterDropping 0 _).oldEntryState = _ at hafter
        rw [hdrop] at hafter
        rw [hlist, PageOp.kept_of_stillExists (Option.some.inj hafter)]
      next => exact hlist
    next =>
      split
      next => rfl
      next hafter =>
        rw [LeafIncorporateSpec.kept, if_neg]
        exact fun hold => hafter (congrArg some hold.1)

end Leaf

private theorem map_maskAddr (l : List (Entry K)) :
    (l.map Entry.maskAddr).map Entry.maskAddr = l.map Entry.maskAddr := by
  rw [List.map_map]
  exact List.map_congr_left fun entry _ => entry.maskAddr_maskAddr

section Index

variable (h : p.Holds q) (hq : q.Placed cfg) (hindex : q.IsIndex)

include h hq hindex

theorem Holds.simulated_setIndexEntry {k : Nat} (hk : k ≤ q.numEntries) (newPivotKey : Key K)
    (newAddr : Addr) (stats : PivotStats) :
    (PageOp.setIndexEntry k newPivotKey newAddr stats).Simulated cfg p q := by
  refine (h.setIndexEntry hq hindex hk newPivotKey newAddr stats).simulated rfl fun q' hq' => ?_
  obtain ⟨hplaced, hentries⟩ := hq.setIndexEntry hk hq'
  refine ⟨hplaced, ?_⟩
  rw [Page.logical, hentries, Page.map_setAt]
  rfl

theorem Holds.simulated_insertIndexEntry {k : Nat} (hk : k ≤ q.numEntries) (newPivotKey : Key K)
    (newAddr : Addr) (stats : PivotStats) :
    (PageOp.insertIndexEntry k newPivotKey newAddr stats).Simulated cfg p q := by
  refine (h.insertIndexEntry hq hindex hk newPivotKey newAddr stats).simulated rfl fun q' hq' => ?_
  obtain ⟨hplaced, hentries⟩ := hq.insertIndexEntry hq'
  refine ⟨hplaced, ?_⟩
  rw [Page.logical, hentries]
  exact PageOp.map_insertAt Entry.maskAddr k _ q.entries

theorem Holds.simulated_truncateIndex {targetEntries : Nat} (ht : targetEntries ≤ q.numEntries) :
    (PageOp.truncateIndex targetEntries).Simulated cfg p q := by
  obtain ⟨p', q', hraw, hpage, hp'⟩ := h.truncateIndex hq hindex ht
  obtain ⟨r, hr, hplaced, hentries, -⟩ := hq.truncateIndex hindex targetEntries
  obtain rfl := Option.some.inj (hpage.symm.trans hr)
  refine .done (o := ⟨true, p', none⟩) ?_ rfl hp' hplaced ?_
  · rw [PageOp.perform, hraw]
    rfl
  · rw [Page.logical, hentries, List.map_take]
    rfl

theorem Holds.simulated_defragmentIndex : PageOp.defragmentIndex.Simulated cfg p q := by
  obtain ⟨p', q', hraw, hpage, hp'⟩ := h.defragmentIndex hq hindex
  obtain ⟨r, hr, hplaced, hentries, -⟩ := hq.defragmentIndex hindex
  obtain rfl := Option.some.inj (hpage.symm.trans hr)
  refine .done (o := ⟨true, p', none⟩) ?_ rfl hp' hplaced ?_
  · rw [PageOp.perform, hraw]
    rfl
  · rw [Page.logical, hentries, map_maskAddr]
    rfl

theorem Holds.simulated_splitIndexRight (memory : PageMemory K) {targetLeftEntries : Nat}
    (ht : targetLeftEntries ≤ q.numEntries) :
    (PageOp.splitIndexRight memory targetLeftEntries).Simulated cfg p q := by
  obtain ⟨p', q', hraw, hpage, hp'⟩ := h.splitIndexBuildRightNode hq hindex memory ht
  obtain ⟨r, hr, hplaced, hentries, -⟩ := hq.splitIndexBuildRightNode hindex targetLeftEntries
  obtain rfl := Option.some.inj (hpage.symm.trans hr)
  refine .done (o := ⟨true, p', none⟩) ?_ rfl hp' hplaced ?_
  · rw [PageOp.perform, hraw]
    rfl
  · rw [Page.logical, hentries, map_maskAddr, List.map_drop]
    rfl

end Index

theorem Holds.simulated (h : p.Holds q) (hq : q.Placed cfg) {op : PageOp K}
    (hkind : ∀ entry ∈ q.entries, entry.kind = op.kind) (hlegal : op.Legal q.numEntries) :
    op.Simulated cfg p q := by
  have hleaf : op.kind = .leaf → q.IsLeaf := fun hop entry hentry =>
    entry.kind_eq_leaf.mp ((hkind entry hentry).trans hop)
  have hindex : op.kind = .index → q.IsIndex := fun hop entry hentry =>
    entry.kind_eq_index.mp ((hkind entry hentry).trans hop)
  cases op with
  | setLeafEntry k newKey newMessage =>
      exact h.simulated_setLeafEntry hq (hleaf rfl) hlegal newKey newMessage
  | insertLeafEntry k newKey newMessage =>
      exact h.simulated_insertLeafEntry hq (hleaf rfl) hlegal newKey newMessage
  | incorporate spec => exact h.simulated_incorporate hq (hleaf rfl) hlegal
  | truncateLeaf targetEntries => exact h.simulated_truncateLeaf hq hlegal
  | defragmentLeaf spec => exact h.simulated_defragmentLeaf hq (hleaf rfl) spec
  | splitLeafRight memory leftAddr spec plan =>
      exact h.simulated_splitLeafRight hq (hleaf rfl) memory leftAddr hlegal
  | splitLeafLeft spec plan rightAddr =>
      exact h.simulated_splitLeafLeft hq (hleaf rfl) spec rightAddr hlegal
  | setIndexEntry k newPivotKey newAddr stats =>
      exact h.simulated_setIndexEntry hq (hindex rfl) hlegal newPivotKey newAddr stats
  | insertIndexEntry k newPivotKey newAddr stats =>
      exact h.simulated_insertIndexEntry hq (hindex rfl) hlegal newPivotKey newAddr stats
  | truncateIndex targetEntries => exact h.simulated_truncateIndex hq (hindex rfl) hlegal
  | defragmentIndex => exact h.simulated_defragmentIndex hq (hindex rfl)
  | splitIndexRight memory targetLeftEntries =>
      exact h.simulated_splitIndexRight hq (hindex rfl) memory hlegal

end RawPage
end Btree
end TreePass
