import TreePass.Core.Lookup

/-!
# Runs of the store

Every step keeps the invariant, with the history read off the trace of the run: the messages of
a key are those of the insert steps so far, and what a lookup is to see are those before its
first step.

* `StoreInv.next`, `StoreInv.compact` and so on: one lemma for each kind of step.
* `coreLookup_returns_fold`: what every lookup of every run returns.
-/

namespace TreePass
namespace Core

open Lib Lib.System

variable {K : Type} {cfg : DataConfig K} {C : Components K} {n : Nat}

section Steps

variable {hist : K → List Message} {seg : K → Int → List Message} {old : K → List Message}
  {seen seen' : Fin n → K → List Message → Prop} {s s' : StoreState C n}

theorem slot_setSlot_ne {ctxt : MemtableContext C.Tree} {r g g' : Int} (hlo : r < g) (hhi : g ≤ r + 4)
    (hlo' : r < g') (hhi' : g' ≤ r + 4) (hne : g ≠ g') (mt : Memtable C.Tree) :
    (ctxt.setSlot g' mt).slot g = ctxt.slot g :=
  slot_setSlot_other ctxt mt fun heq => hne (memtableIdx_inj hlo hhi hlo' hhi' heq)

theorem StoreInv.stay (h : StoreInv cfg hist seg old seen s) {hist' : K → List Message}
    {seg' : K → Int → List Message} (hthread : s'.thread = s.thread)
    (hshared : SharedInv cfg hist' seg' old s') (hframe : ∀ u, Frame s s' (s.thread u))
    (hseg : ∀ k g, g < s.ctxt.generation → seg' k g = seg k g)
    (hseen : ∀ u k msgs, seen u k msgs → seen' u k msgs) : StoreInv cfg hist' seg' old seen' s' where
  shared := hshared
  thread u := by
    rw [hthread]
    exact (h.thread u).frame (hframe u) hseg (hseen u)
  one_incorporator t u ht hu := by
    rw [hthread] at ht hu
    exact h.one_incorporator t u ht hu
  one_compactor t u g tree tree' ht hu := by
    rw [hthread] at ht hu
    exact h.one_compactor t u g tree tree' ht hu

theorem frame_setSlot (h : SharedInv cfg hist seg old s) {g : Int} {mt : Memtable C.Tree}
    (hlo : s.ctxt.generationRetired < g) (hhi : g ≤ s.ctxt.generationRetired + 4) {pc : Pc C}
    (hassigned : g < s.ctxt.generation → (s.ctxt.slot g).state ≠ .incorporationAssigned)
    (hcompacting : g < s.ctxt.generation → (s.ctxt.slot g).state = .compacting →
      ∀ tree, pc ≠ .compacting g tree)
    (hretired : s'.ctxt.generationRetired = s.ctxt.generationRetired)
    (hgeneration : s.ctxt.generation ≤ s'.ctxt.generation)
    (hmt : s'.ctxt.mt = (s.ctxt.setSlot g mt).mt)
    (hinc : pc.incorporates = true →
      s'.ctxt.generationToIncorporate = s.ctxt.generationToIncorporate ∧
        s'.modifying = s.modifying ∧ s'.postRoot = s.postRoot) : Frame s s' pc := by
  have hle := h.generation_le
  have hother : ∀ g', s.ctxt.generationRetired < g' → g' < s.ctxt.generation → g' ≠ g →
      s'.ctxt.slot g' = s.ctxt.slot g' := by
    intro g' hlo' hlt' hg
    rw [MemtableContext.slot, hmt]
    exact slot_setSlot_ne hlo' (by omega) hlo hhi hg mt
  refine ⟨hretired, hgeneration, ?_, hinc, ?_⟩
  · rintro g' tree hpc hlo' hlt' hstate
    refine hother g' hlo' hlt' ?_
    rintro rfl
    exact hcompacting hlt' hstate tree hpc
  · intro _ g' hlo' hlt' hstate
    refine hother g' hlo' hlt' ?_
    rintro rfl
    exact hassigned hlt' hstate

theorem StoreInv.insert [DecidableEq K] (h : StoreInv cfg hist seg old seen s)
    (hmerge : MergeAssoc cfg) (hmeets : Meets cfg C) {k : K} {msg : Message}
    (hinsert : coreMemtableInsert s k msg = some s')
    (hseen : ∀ u k msgs, seen u k msgs → seen' u k msgs) :
    StoreInv cfg (fun k' => if k' = k then msg :: hist k' else hist k')
      (pushSeg seg k s.ctxt.generation msg) old seen' s' := by
  obtain ⟨hshared, mt, rfl⟩ := h.shared.insert hmerge hmeets hinsert
  have hlt := h.shared.retired_lt
  have hle := h.shared.generation_le
  have hframe : ∀ pc, Frame s { s with ctxt := s.ctxt.setSlot s.ctxt.generation mt } pc := fun pc =>
    frame_setSlot h.shared hlt (by omega) (fun hself => absurd hself (Int.lt_irrefl _))
      (fun hself => absurd hself (Int.lt_irrefl _)) rfl le_rfl rfl fun _ => ⟨rfl, rfl, rfl⟩
  exact h.stay rfl hshared (fun u => hframe _) (fun k' g hg => if_neg fun hboth => by omega) hseen

theorem StoreInv.rotate (h : StoreInv cfg hist seg old seen s) (hrotate : memtableRotate s = some s')
    (hseen : ∀ u k msgs, seen u k msgs → seen' u k msgs) :
    StoreInv cfg hist (startSeg seg (s.ctxt.generation + 1)) old seen' s' := by
  obtain ⟨hshared, mt, rfl⟩ := h.shared.rotate hrotate
  have hlt := h.shared.retired_lt
  have hle := h.shared.generation_le
  have hframe : ∀ pc, Frame s { s with ctxt :=
      { s.ctxt.setSlot s.ctxt.generation mt with generation := s.ctxt.generation + 1 } } pc :=
    fun pc => frame_setSlot h.shared hlt (by omega) (fun hself => absurd hself (Int.lt_irrefl _))
      (fun hself => absurd hself (Int.lt_irrefl _)) rfl (Int.le_of_lt (Int.lt_succ _)) rfl
      fun _ => ⟨rfl, rfl, rfl⟩
  exact h.stay rfl hshared (fun u => hframe _) (fun k g hg => if_neg (by omega)) hseen

theorem StoreInv.recycle (h : StoreInv cfg hist seg old seen s) (hmeets : Meets cfg C) {g : Int}
    (hrecycle : memtableRecycle s g = some s')
    (hseen : ∀ u k msgs, seen u k msgs → seen' u k msgs) :
    StoreInv cfg hist seg old seen' s' := by
  obtain ⟨hshared, hgt, hretired, mt, rfl⟩ := h.shared.recycle hmeets hrecycle
  have hlt := h.shared.retired_lt
  have hset : s.ctxt.setSlot g mt = s.ctxt.setSlot (g + 4) mt := by
    rw [MemtableContext.setSlot, MemtableContext.setSlot, memtableIdx_add]
  have hframe : ∀ pc, Frame s { s with ctxt := s.ctxt.setSlot g mt } pc := fun pc =>
    frame_setSlot h.shared (g := g + 4) (by omega) (by omega) (fun hlt' => by omega)
      (fun hlt' => by omega) rfl le_rfl (congrArg MemtableContext.mt hset) fun _ => ⟨rfl, rfl, rfl⟩
  exact h.stay rfl hshared (fun u => hframe _) (fun _ _ _ => rfl) hseen

theorem StoreInv.modify (h : StoreInv cfg hist seg old seen s) (hmeets : Meets cfg C)
    {plan : C.Plan} {root : C.Root} (hmodify : C.trunkModify plan s.root = some root)
    (hseen : ∀ u k msgs, seen u k msgs → seen' u k msgs) :
    StoreInv cfg hist seg old seen' { s with root := root } :=
  h.stay rfl (h.shared.modify hmeets hmodify)
    (fun _ => ⟨rfl, le_rfl, fun _ _ _ _ _ _ => rfl, fun _ => ⟨rfl, rfl, rfl⟩, fun _ _ _ _ _ => rfl⟩)
    (fun _ _ _ => rfl) hseen

theorem StoreInv.goto (h : StoreInv cfg hist seg old seen s) {t : Fin n} {pc : Pc C}
    (hown : ThreadInv cfg seg old s (seen' t) pc) (hinc : pc.incorporates = false)
    (hcompacting : ∀ g tree, pc ≠ .compacting g tree)
    (hseen : ∀ u, u ≠ t → ∀ k msgs, seen u k msgs → seen' u k msgs) :
    StoreInv cfg hist seg old seen' (s.goto t pc) := by
  have hframe : ∀ pc', Frame s (s.goto t pc) pc' := fun _ =>
    ⟨rfl, le_rfl, fun _ _ _ _ _ _ => rfl, fun _ => ⟨rfl, rfl, rfl⟩, fun _ _ _ _ _ => rfl⟩
  refine h.move t pc rfl (h.shared.of_eq rfl rfl rfl) (hown.frame (hframe _) (fun _ _ _ => rfl) fun _ _ h => h)
    (fun u hu => (h.thread u).frame (hframe _) (fun _ _ _ => rfl) (hseen u hu))
    (fun hpc => ?_) (fun g tree hpc => absurd hpc (hcompacting g tree))
  rw [hinc] at hpc
  cases hpc

/-! ## The flush of a memtable -/

theorem StoreInv.compact (h : StoreInv cfg hist seg old seen s) {t : Fin n} {g : Int}
    {mt : Memtable C.Tree} {ctxt : MemtableContext C.Tree} (hget : s.ctxt.getMemtable g = some mt)
    (htrans : s.ctxt.transition g .finalized .compacting = some ctxt)
    (hseen : ∀ u k msgs, seen u k msgs → seen' u k msgs) :
    StoreInv cfg hist seg old seen' { s.goto t (.compacting g mt.root) with ctxt := ctxt } := by
  have hle := h.shared.generation_le
  obtain ⟨rfl, -⟩ := getMemtable_eq_some hget
  obtain ⟨hgen, hstate, rfl⟩ := transition_eq_some htrans
  obtain ⟨hlo, hlt⟩ := h.shared.live_of_state hgen (by rw [hstate]; simp [MemtableState.Waiting])
  have hshared := h.shared.transition hlo hlt .compacting (by simp [MemtableState.Waiting])
    s.compacted (fun _ _ => rfl) (fun hpacked => by cases hpacked)
  have hcompacting : ∀ u tree, s.thread u ≠ .compacting g tree := by
    intro u tree hpc
    have hinv := h.thread u
    rw [hpc] at hinv
    obtain ⟨-, -, hcompacting, -⟩ := hinv
    rw [hstate] at hcompacting
    cases hcompacting
  refine h.move t (.compacting g (s.ctxt.slot g).root) rfl (hshared.of_eq rfl rfl rfl) ?_ (fun u _ => (h.thread u).frame ?_
    (fun _ _ _ => rfl) (hseen u)) (fun hinc => by cases hinc) ?_
  · exact ⟨hlo, hlt, by simp, by simp⟩
  · exact frame_setSlot h.shared hlo (by omega) (fun _ => by rw [hstate]; decide)
      (fun _ hcomp => by rw [hstate] at hcomp; cases hcomp) rfl le_rfl rfl fun _ => ⟨rfl, rfl, rfl⟩
  · rintro g' tree hpc u - tree' hpc'
    injection hpc with hg
    exact hcompacting u tree' (hg ▸ hpc')

theorem StoreInv.pack (h : StoreInv cfg hist seg old seen s) (hmeets : Meets cfg C) {t : Fin n}
    {g : Int} {tree : C.Tree} {branch : C.Branch} {ctxt : MemtableContext C.Tree}
    (hpc : s.thread t = .compacting g tree) (hpack : C.btreePack tree = some branch)
    (htrans : s.ctxt.transition g .compacting .compacted = some ctxt)
    (hseen : ∀ u k msgs, seen u k msgs → seen' u k msgs) :
    StoreInv cfg hist seg old seen'
      { s with
        ctxt := ctxt
        compacted := Function.update s.compacted (memtableIdx g) (some branch)
        thread := Function.update s.thread t (.compacted g) } := by
  have hle := h.shared.generation_le
  have hinv := h.thread t
  rw [hpc] at hinv
  obtain ⟨hlo, hlt, hstate, rfl⟩ := hinv
  obtain ⟨-, -, rfl⟩ := transition_eq_some htrans
  have hshared := h.shared.transition hlo hlt .compacted (by simp [MemtableState.Waiting])
    (Function.update s.compacted (memtableIdx g) (some branch))
    (fun i hi => Function.update_of_ne hi _ _)
    (fun _ => ⟨branch, Function.update_self _ _ _, hmeets.pack _ _ hpack⟩)
  refine h.move t (.compacted g) rfl (hshared.of_eq rfl rfl rfl) trivial (fun u hu => (h.thread u).frame ?_
    (fun _ _ _ => rfl) (hseen u)) (fun hinc => by cases hinc) (by simp)
  refine frame_setSlot h.shared hlo (by omega) (fun _ => by rw [hstate]; decide)
    (fun _ _ tree' hpc' => hu (h.one_compactor u t g tree' _ hpc' hpc)) rfl le_rfl rfl
    fun _ => ⟨rfl, rfl, rfl⟩

theorem StoreInv.no_incorporator (h : StoreInv cfg hist seg old seen s)
    (hstate : (s.ctxt.slot (s.ctxt.generationRetired + 1)).state ≠ .incorporationAssigned)
    (hto : s.ctxt.generationToIncorporate = s.ctxt.generationRetired + 1) (u : Fin n) :
    (s.thread u).incorporates = false := by
  have hinv := h.thread u
  cases hpc : s.thread u <;> rw [hpc] at hinv <;> try rfl
  case assigned g =>
    obtain ⟨hnext, -, -, hassigned⟩ := hinv
    exact absurd (hnext ▸ hassigned) hstate
  case prepared g =>
    obtain ⟨⟨hnext, -, -, hassigned⟩, -⟩ := hinv
    exact absurd (hnext ▸ hassigned) hstate
  case committed g =>
    obtain ⟨hretired, hto', -⟩ := hinv
    omega
  case continuing g =>
    obtain ⟨hretired, hto'⟩ := hinv
    omega

theorem StoreInv.assign (h : StoreInv cfg hist seg old seen s) {t : Fin n} {g : Int}
    {ctxt : MemtableContext C.Tree}
    (htrans : s.ctxt.transition g .compacted .incorporationAssigned = some ctxt)
    (hnext : s.ctxt.generationRetired + 1 = g)
    (hinc : (s.thread t).incorporates = true ∨ ∀ u, u ≠ t → (s.thread u).incorporates = false)
    (hseen : ∀ u k msgs, seen u k msgs → seen' u k msgs) :
    StoreInv cfg hist seg old seen' { s.goto t (.assigned g) with
      ctxt := { ctxt with generationToIncorporate := g } } := by
  have hle := h.shared.generation_le
  obtain ⟨hgen, hstate, rfl⟩ := transition_eq_some htrans
  obtain ⟨hlo, hlt⟩ := h.shared.live_of_state hgen (by rw [hstate]; simp [MemtableState.Waiting])
  have hslot := h.shared.slot g hlo (by omega)
  have hpacked := hslot.packed (Int.le_of_lt hlt) (by simp [Memtable.okToLookupCompacted, hstate])
  have hshared := h.shared.transition hlo hlt .incorporationAssigned
    (by simp [MemtableState.Waiting]) s.compacted (fun _ _ => rfl) (fun _ => hpacked)
  have hothers : ∀ u, u ≠ t → (s.thread u).incorporates = false := by
    intro u hu
    rcases hinc with hheld | hnone
    · by_contra hset
      exact hu (h.one_incorporator u t (by simpa using hset) hheld)
    · exact hnone u hu
  have hshared' : SharedInv cfg hist seg old { s.goto t (.assigned g) with
      ctxt := { s.ctxt.setSlot g ((s.ctxt.slot g).withState .incorporationAssigned) with
        generationToIncorporate := g } } := by
    obtain ⟨hseg, hold, hretired, hgeneration, -, hhist, hroot, hslot⟩ := hshared
    exact ⟨hseg, hold, hretired, hgeneration, hnext.symm.le, hhist, hroot, hslot⟩
  refine h.move t (.assigned g) rfl hshared' ⟨hnext, rfl, hlt, ?_⟩ (fun u hu => (h.thread u).frame ?_
    (fun _ _ _ => rfl) (hseen u)) (fun _ => Or.inr hothers) (by simp)
  · exact congrArg Memtable.state (slot_setSlot s.ctxt g _)
  · refine frame_setSlot h.shared hlo (by omega) (fun _ => by rw [hstate]; decide)
      (fun _ hcomp => by rw [hstate] at hcomp; cases hcomp) rfl le_rfl rfl fun hinc' => ?_
    rw [hothers u hu] at hinc'
    cases hinc'

theorem StoreInv.incorporating (h : StoreInv cfg hist seg old seen s) (t : Fin n) (pc : Pc C)
    (ctxt : MemtableContext C.Tree) (postRoot : Option C.Root) (modifying : Bool)
    (hinc : (s.thread t).incorporates = true)
    (hctxt : ctxt.generation = s.ctxt.generation ∧
      ctxt.generationRetired = s.ctxt.generationRetired ∧ ctxt.mt = s.ctxt.mt)
    (hto : ctxt.generationToIncorporate ≤ s.ctxt.generationRetired + 1)
    (hown : ThreadInv cfg seg old
      { s.goto t pc with ctxt := ctxt, postRoot := postRoot, modifying := modifying } (seen' t) pc)
    (hcompacting : ∀ g tree, pc ≠ .compacting g tree)
    (hseen : ∀ u k msgs, seen u k msgs → seen' u k msgs) :
    StoreInv cfg hist seg old seen'
      { s.goto t pc with ctxt := ctxt, postRoot := postRoot, modifying := modifying } := by
  obtain ⟨generation, toIncorporate, retired, mt⟩ := ctxt
  obtain ⟨rfl, rfl, rfl⟩ := hctxt
  have hshared : SharedInv cfg hist seg old { s.goto t pc with
      ctxt := ⟨s.ctxt.generation, toIncorporate, s.ctxt.generationRetired, s.ctxt.mt⟩,
      postRoot := postRoot, modifying := modifying } := by
    obtain ⟨hseg, hold, hretired, hgeneration, -, hhist, hroot, hslot⟩ := h.shared
    exact ⟨hseg, hold, hretired, hgeneration, hto, hhist, hroot, hslot⟩
  refine h.move t pc rfl hshared hown (fun u hu => (h.thread u).frame ?_ (fun _ _ _ => rfl) (hseen u))
    (fun _ => Or.inl hinc) (fun g tree hpc => absurd hpc (hcompacting g tree))
  refine ⟨rfl, le_rfl, fun _ _ _ _ _ _ => rfl, fun hother => ?_, fun _ _ _ _ _ => rfl⟩
  exact absurd (h.one_incorporator u t hother hinc) hu

/-- **The commit.**  No lookup is between two memtables, and the oldest segment is under the new
root. -/
theorem StoreInv.commit (h : StoreInv cfg hist seg old seen s) {t : Fin n} {g : Int}
    (hpc : s.thread t = .prepared g) (hcommit : coreMemtableCommit s g = some s')
    (hseen : ∀ u k msgs, seen u k msgs → seen' u k msgs) :
    StoreInv cfg hist seg (fun k => seg k g ++ old k) seen' (s'.goto t (.committed g)) := by
  have hle := h.shared.generation_le
  have hinv := h.thread t
  rw [hpc] at hinv
  obtain ⟨hhead, hmodifying, root, hroot, hvalue⟩ := hinv
  have hpost : ∀ root', s.postRoot = some root' → ∀ k,
      C.trunkMergeLookup root' k none = foldAll (mergeOp cfg k) (seg k g ++ old k) := by
    intro root' hroot'
    rw [hroot, Option.some.injEq] at hroot'
    exact hroot' ▸ hvalue
  obtain ⟨hshared, hlock, hnext, mt, root', rfl⟩ := h.shared.commit hcommit hpost
  have hinc : (s.thread t).incorporates = true := by rw [hpc]; rfl
  have hothers : ∀ u, u ≠ t → (s.thread u).incorporates = false := by
    intro u hu
    by_contra hset
    exact hu (h.one_incorporator u t (by simpa using hset) hinc)
  refine h.move t (.committed g) rfl (hshared.of_eq rfl rfl rfl)
    ⟨rfl, hhead.toIncorporate, hmodifying⟩ (fun u hu => ?_) (fun _ => Or.inr hothers) (by simp)
  have hinvu := h.thread u
  have hlocku := hlock u
  have hothersu := hothers u hu
  cases hpcu : s.thread u <;> rw [hpcu] at hinvu hlocku hothersu
  case idle => trivial
  case compacted => trivial
  case scanning => cases hlocku
  case holding async k root' result =>
    obtain ⟨older, hvalue', hsplit⟩ := hinvu
    exact ⟨older, hvalue', hsplit.mono (hseen u)⟩
  case returned k result =>
    obtain ⟨msgs, hmsgs, hfinal⟩ := hinvu
    exact ⟨msgs, hseen u k msgs hmsgs, hfinal⟩
  case compacting g' tree =>
    -- The memtable being packed is not the assigned one.
    obtain ⟨hlo, hlt, hstate, htree⟩ := hinvu
    have hne : g' ≠ g := by
      rintro rfl
      rw [hhead.state] at hstate
      cases hstate
    have hslot : (s.ctxt.setSlot g mt).slot g' = s.ctxt.slot g' :=
      slot_setSlot_ne hlo (by omega) (by omega) (by omega) hne mt
    refine ⟨?_, hlt, ?_, ?_⟩
    · change g < g'
      omega
    · change ((s.ctxt.setSlot g mt).slot g').state = _
      rw [hslot, hstate]
    · change ((s.ctxt.setSlot g mt).slot g').root = _
      rw [hslot, htree]
  all_goals cases hothersu

theorem StoreInv.prepare (h : StoreInv cfg hist seg old seen s) (hmerge : MergeAssoc cfg)
    (hmeets : Meets cfg C) {t : Fin n} {g : Int} {plan : C.Plan} {branch : C.Branch} {root : C.Root}
    (hpc : s.thread t = .assigned g) (hbranch : s.compacted (memtableIdx g) = some branch)
    (hprepare : C.trunkIncorporatePrepare plan s.root branch = some root)
    (hseen : ∀ u k msgs, seen u k msgs → seen' u k msgs) :
    StoreInv cfg hist seg old seen'
      { s.goto t (.prepared g) with postRoot := some root, modifying := true } := by
  have hle := h.shared.generation_le
  have hinv := h.thread t
  rw [hpc] at hinv
  have hhead : AtHead s g := hinv
  have hlo : s.ctxt.generationRetired < g := by
    have := hhead.next
    omega
  have hwaiting := hhead.waiting
  have hslot := h.shared.slot g hlo (by omega)
  obtain ⟨branch', hbranch', hlookup⟩ := hslot.packed (Int.le_of_lt hwaiting)
    (by simp [Memtable.okToLookupCompacted, hhead.state])
  rw [hbranch, Option.some.injEq] at hbranch'
  subst hbranch'
  have hvalue : ∀ k, C.trunkMergeLookup root k none = foldAll (mergeOp cfg k) (seg k g ++ old k) := by
    intro k
    rw [hmeets.incorporate _ _ _ _ hprepare k, h.shared.root_eq k, hlookup k,
      foldAll_append (hmerge k) (h.shared.seg_user k g) (h.shared.old_user k),
      hslot.content (Int.le_of_lt hwaiting) k, Option.bind_some]
    rfl
  exact h.incorporating t (.prepared g) s.ctxt (some root) true (by rw [hpc]; rfl)
    ⟨rfl, rfl, rfl⟩ h.shared.toIncorporate_le
    ⟨⟨hhead.next, hhead.toIncorporate, hwaiting, hhead.state⟩, rfl, root, rfl, hvalue⟩ (by simp) hseen

theorem coreLookupTurn_kind {s : StoreState C n} {async : Bool} {k : K} {mtGen mtGenEnd : Int}
    {result : Option Message} {pc : Pc C}
    (hturn : coreLookupTurn cfg s async k mtGen mtGenEnd result = some pc) :
    pc.incorporates = false ∧ ∀ g tree, pc ≠ .compacting g tree := by
  rw [coreLookupTurn] at hturn
  split at hturn
  · cases hturn
    exact ⟨rfl, (by simp)⟩
  · obtain ⟨result', -, rfl⟩ := Option.map_eq_some_iff.mp hturn
    split
    · exact ⟨rfl, (by simp)⟩
    · exact ⟨rfl, (by simp)⟩

theorem StoreInv.next
    (h : StoreInv cfg hist seg old seen s) (hmerge : MergeAssoc cfg) (hmeets : Meets cfg C)
    {t : Fin n} {plan : C.Plan} (hnext : pcNext cfg s t plan = some s')
    (hseen : ∀ u k msgs, seen u k msgs → seen' u k msgs) :
    ∃ old', StoreInv cfg hist seg old' seen' s' := by
  have hinv := h.thread t
  cases hpc : s.thread t <;> rw [hpc] at hinv <;> simp only [pcNext, hpc] at hnext
  case idle => cases hnext
  case returned => cases hnext
  case scanning async k mtGen mtGenEnd result =>
    obtain ⟨pc, hturn, rfl⟩ := Option.map_eq_some_iff.mp hnext
    obtain ⟨rfl, hle, hlt, hsplit⟩ := hinv
    obtain ⟨hinc, hcompacting⟩ := coreLookupTurn_kind hturn
    have hown := h.shared.lookupTurn hmerge hle (Int.le_of_lt hlt) (hsplit.mono (hseen t)) hturn
    exact ⟨old, h.goto hown hinc hcompacting fun u _ => hseen u⟩
  case holding async k root result =>
    obtain ⟨pc, htrunk, rfl⟩ := Option.map_eq_some_iff.mp hnext
    obtain ⟨older, hvalue, hsplit⟩ := hinv
    have hown : ThreadInv cfg seg old s (seen' t) pc :=
      lookupTrunk hmerge hmeets ⟨older, hvalue, hsplit.mono (hseen t)⟩ htrunk
    obtain ⟨result', -, hrest⟩ := Option.bind_eq_some_iff.mp htrunk
    obtain ⟨final, -, rfl⟩ := Option.map_eq_some_iff.mp hrest
    exact ⟨old, h.goto hown rfl (by simp) fun u _ => hseen u⟩
  case compacting g tree =>
    obtain ⟨branch, hpack, hrest⟩ := Option.bind_eq_some_iff.mp hnext
    obtain ⟨ctxt, htrans, rfl⟩ := Option.map_eq_some_iff.mp hrest
    exact ⟨old, h.pack hmeets hpc hpack htrans hseen⟩
  case compacted g =>
    split at hnext
    · rename_i ctxt hstart
      cases hnext
      rw [coreTryStartIncorporate, Option.ite_none_right_eq_some] at hstart
      obtain ⟨hto, htrans⟩ := hstart
      obtain ⟨hgen, hstate, hctxt⟩ := transition_eq_some htrans
      obtain ⟨hlo, -⟩ := h.shared.live_of_state hgen (by rw [hstate]; simp [MemtableState.Waiting])
      have hbound := h.shared.toIncorporate_le
      have hnext : s.ctxt.generationRetired + 1 = g := by omega
      have hnone := h.no_incorporator (by rw [hnext, hstate]; decide) (by omega)
      have hassign := h.assign (t := t) htrans hnext (Or.inr fun u _ => hnone u) hseen
      have hsame : { ctxt with generationToIncorporate := g } = ctxt := by
        rw [hctxt, hto]
        rfl
      rw [hsame] at hassign
      exact ⟨old, hassign⟩
    · cases hnext
      exact ⟨old, h.goto trivial rfl (by simp) fun u _ => hseen u⟩
  case assigned g =>
    split at hnext
    · cases hnext
    · obtain ⟨branch, hbranch, hrest⟩ := Option.bind_eq_some_iff.mp hnext
      obtain ⟨root, hprepare, rfl⟩ := Option.map_eq_some_iff.mp hrest
      exact ⟨old, h.prepare hmerge hmeets hpc hbranch hprepare hseen⟩
  case prepared g =>
    obtain ⟨s₁, hcommit, rfl⟩ := Option.map_eq_some_iff.mp hnext
    exact ⟨_, h.commit hpc hcommit hseen⟩
  case committed g =>
    cases hnext
    obtain ⟨hretired, hto, -⟩ := hinv
    exact ⟨old, h.incorporating t (.continuing (g + 1)) s.ctxt s.postRoot false (by rw [hpc]; rfl)
      ⟨rfl, rfl, rfl⟩ h.shared.toIncorporate_le ⟨by rw [← hretired], by rw [← hto]⟩ (by simp) hseen⟩
  case continuing g =>
    obtain ⟨⟨continues, ctxt⟩, hcontinue, rfl⟩ := Option.map_eq_some_iff.mp hnext
    obtain ⟨hretired, hto⟩ := hinv
    have hinc : (s.thread t).incorporates = true := by rw [hpc]; rfl
    rw [coreTryContinueIncorporate] at hcontinue
    split at hcontinue
    · cases hcontinue
      exact ⟨old, h.goto trivial rfl (by simp) fun u _ => hseen u⟩
    · rw [if_pos hto] at hcontinue
      split at hcontinue
      · rename_i ctxt' htrans
        cases hcontinue
        have hassign := h.assign (t := t) htrans hretired (Or.inl hinc) hseen
        obtain ⟨-, -, hctxt⟩ := transition_eq_some htrans
        have hsame : ctxt'.generationToIncorporate + 1 = g := by
          rw [hctxt]
          exact hto
        rw [← hsame] at hassign ⊢
        exact ⟨old, hassign⟩
      · cases hcontinue
        exact ⟨old, h.incorporating t .idle _ s.postRoot s.modifying hinc ⟨rfl, rfl, rfl⟩
          (by change s.ctxt.generationToIncorporate + 1 ≤ _; omega) trivial (by simp) hseen⟩

end Steps

/-! ## The history of a run -/

section History

/-- The last lookup a thread has started in a trace is for `k`, after the steps `before`. -/
def LookedUp (tr : List (StoreState C n × Fin n × StoreAct C)) (t : Fin n) (k : K)
    (before : List (StoreState C n × Fin n × StoreAct C)) : Prop :=
  ∃ s async after, tr = before ++ (s, t, .lookup async k) :: after ∧
    ∀ p ∈ after, p.2.1 = t → ∀ async' k', p.2.2 ≠ .lookup async' k'

theorem LookedUp.snoc {tr before : List (StoreState C n × Fin n × StoreAct C)} {t : Fin n} {k : K}
    (h : LookedUp tr t k before) {s : StoreState C n} {a : Fin n × StoreAct C}
    (ha : a.1 = t → ∀ async' k', a.2 ≠ .lookup async' k') :
    LookedUp (tr ++ [(s, a)]) t k before := by
  obtain ⟨s₀, async, after, rfl, hafter⟩ := h
  refine ⟨s₀, async, after ++ [(s, a)], by simp, ?_⟩
  intro p hp
  rcases List.mem_append.mp hp with hold | hnew
  · exact hafter p hold
  · obtain rfl := List.mem_singleton.mp hnew
    exact ha

variable [DecidableEq K]

def insertOf (k : K) : StoreAct C → Option Message
  | .insert k' msg => if k' = k then some msg else none
  | _ => none

/-- The messages the steps of a trace insert for a key, newest first. -/
def insertedFor (k : K) (tr : List (StoreState C n × Fin n × StoreAct C)) : List Message :=
  (tr.filterMap fun p => insertOf k p.2.2).reverse

def SeenIn (tr : List (StoreState C n × Fin n × StoreAct C)) (t : Fin n) (k : K)
    (msgs : List Message) : Prop :=
  ∃ before, LookedUp tr t k before ∧ msgs = insertedFor k before

theorem insertedFor_snoc (k : K) (tr : List (StoreState C n × Fin n × StoreAct C))
    (s : StoreState C n) (a : Fin n × StoreAct C) :
    insertedFor k (tr ++ [(s, a)]) = (insertOf k a.2).toList ++ insertedFor k tr := by
  cases h : insertOf k a.2 <;> simp [insertedFor, h]

theorem insertedFor_other {tr : List (StoreState C n × Fin n × StoreAct C)} {s : StoreState C n}
    {a : Fin n × StoreAct C} (ha : ∀ k msg, a.2 ≠ .insert k msg) :
    (fun k => insertedFor k (tr ++ [(s, a)])) = fun k => insertedFor k tr := by
  funext k
  rw [insertedFor_snoc]
  cases hact : a.2 <;> first | rfl | exact absurd hact (ha _ _)

def TraceInv (cfg : DataConfig K) (tr : List (StoreState C n × Fin n × StoreAct C))
    (s : StoreState C n) : Prop :=
  ∃ seg old, StoreInv cfg (fun k => insertedFor k tr) seg old (SeenIn tr) s

theorem traceInv_newStore (hmeets : Meets cfg C) : TraceInv cfg [] (newStore C n) :=
  ⟨_, _, sharedInv_newStore hmeets, fun _ => trivial, fun _ _ ht => (by cases ht),
    fun _ _ _ _ _ ht => (by cases ht)⟩

theorem StoreInv.lookup {tr : List (StoreState C n × Fin n × StoreAct C)} {s : StoreState C n}
    {seg : K → Int → List Message} {old : K → List Message}
    (h : StoreInv cfg (fun k => insertedFor k tr) seg old (SeenIn tr) s) (hmerge : MergeAssoc cfg)
    {t : Fin n} {async : Bool} {k : K} {pc : Pc C}
    (hturn : coreLookupTurn cfg s async k s.ctxt.generation s.ctxt.generationRetired none = some pc)
    (hkind : pc.incorporates = false ∧ ∀ g tree, pc ≠ .compacting g tree) :
    StoreInv cfg (fun k => insertedFor k tr) seg old (SeenIn (tr ++ [(s, t, .lookup async k)]))
      (s.goto t pc) := by
  have hseen : SeenIn (tr ++ [(s, t, .lookup async k)]) t k (insertedFor k tr) :=
    ⟨tr, ⟨s, async, [], rfl, (by simp)⟩, rfl⟩
  have hsplit : Split cfg k (SeenIn (tr ++ [(s, t, .lookup async k)]) t) none
      (gather (seg k) s.ctxt.generation
        (s.ctxt.generation - s.ctxt.generationRetired).toNat ++ old k) := by
    refine ⟨[], ?_, rfl, (by simp), ?_⟩
    · rw [List.nil_append, ← h.shared.hist_eq k]
      exact hseen
    · intro m hm
      rcases List.mem_append.mp hm with hlive | hold
      · obtain ⟨g, hg⟩ := mem_gather _ _ hlive
        exact h.shared.seg_user k g m hg
      · exact h.shared.old_user k m hold
  have hown := h.shared.lookupTurn hmerge (Int.le_of_lt h.shared.retired_lt) le_rfl hsplit hturn
  refine h.goto hown hkind.1 hkind.2 ?_
  rintro u hu k' msgs ⟨before, hbefore, rfl⟩
  exact ⟨before, hbefore.snoc fun heq => absurd heq.symm hu, rfl⟩

theorem traceInv_step {tr : List (StoreState C n × Fin n × StoreAct C)} {s s' : StoreState C n}
    {a : Fin n × StoreAct C} (h : TraceInv cfg tr s) (hmerge : MergeAssoc cfg)
    (hmeets : Meets cfg C) (hstep : storeNext cfg s a = some s') :
    TraceInv cfg (tr ++ [(s, a)]) s' := by
  obtain ⟨seg, old, hinv⟩ := h
  obtain ⟨t, act⟩ := a
  have hseen : (∀ async k, act ≠ .lookup async k) →
      ∀ u k msgs, SeenIn tr u k msgs → SeenIn (tr ++ [(s, t, act)]) u k msgs := by
    rintro hact u k msgs ⟨before, hbefore, rfl⟩
    exact ⟨before, hbefore.snoc fun _ => hact, rfl⟩
  cases act with
  | next plan =>
      obtain ⟨old', hinv'⟩ := hinv.next hmerge hmeets hstep (hseen (by simp))
      exact ⟨seg, old', by rwa [insertedFor_other (by simp)]⟩
  | recycle g => exact ⟨seg, old, by
      rw [insertedFor_other (by simp)]
      exact hinv.recycle hmeets hstep (hseen (by simp))⟩
  | modifyTrunk plan =>
      obtain ⟨-, hrest⟩ := Option.ite_none_left_eq_some.mp hstep
      obtain ⟨root, hmodify, rfl⟩ := Option.map_eq_some_iff.mp hrest
      refine ⟨seg, old, ?_⟩
      rw [insertedFor_other (by simp)]
      exact hinv.modify hmeets hmodify (hseen (by simp))
  | insert k msg =>
      obtain ⟨-, hinsert⟩ := Option.ite_none_right_eq_some.mp hstep
      refine ⟨pushSeg seg k s.ctxt.generation msg, old, ?_⟩
      have hhist : (fun k' => insertedFor k' (tr ++ [(s, t, StoreAct.insert k msg)])) =
          fun k' => if k' = k then msg :: insertedFor k' tr else insertedFor k' tr := by
        funext k'
        rw [insertedFor_snoc, insertOf]
        by_cases hk : k = k'
        · simp [hk]
        · simp [hk, Ne.symm hk]
      rw [hhist]
      exact hinv.insert hmerge hmeets hinsert (hseen (by simp))
  | rotate =>
      obtain ⟨-, hrotate⟩ := Option.ite_none_right_eq_some.mp hstep
      refine ⟨startSeg seg (s.ctxt.generation + 1), old, ?_⟩
      rw [insertedFor_other (by simp)]
      exact hinv.rotate hrotate (hseen (by simp))
  | compact g =>
      obtain ⟨-, hrest⟩ := Option.ite_none_right_eq_some.mp hstep
      obtain ⟨mt, hget, hrest⟩ := Option.bind_eq_some_iff.mp hrest
      obtain ⟨ctxt, htrans, rfl⟩ := Option.map_eq_some_iff.mp hrest
      refine ⟨seg, old, ?_⟩
      rw [insertedFor_other (by simp)]
      exact hinv.compact hget htrans (hseen (by simp))
  | lookup async k =>
      obtain ⟨-, hrest⟩ := Option.ite_none_right_eq_some.mp hstep
      obtain ⟨pc, hturn, rfl⟩ := Option.map_eq_some_iff.mp hrest
      refine ⟨seg, old, ?_⟩
      rw [insertedFor_other (by simp)]
      exact hinv.lookup hmerge hturn (coreLookupTurn_kind hturn)

theorem traceInv_run {tr : List (StoreState C n × Fin n × StoreAct C)} {s s' : StoreState C n}
    (hmerge : MergeAssoc cfg) (hmeets : Meets cfg C) (hinit : (storeSystem cfg C n).init s)
    (hrun : (storeSystem cfg C n).Run s tr s') : TraceInv cfg tr s' := by
  have hs : s = newStore C n := hinit
  subst hs
  exact hrun.trace_invariant (traceInv_newStore hmeets) fun _ _ _ _ h hstep =>
    traceInv_step h hmerge hmeets hstep

/-! ## Progress -/

def Pc.lookupSteps : Pc C → Nat
  | .scanning _ _ mtGen mtGenEnd _ => (mtGen - mtGenEnd).toNat + 2
  | .holding _ _ _ _ => 1
  | _ => 0

/-- `merge_tuples_final` does not fail on messages of an application. -/
def FinalTotal (cfg : DataConfig K) : Prop :=
  ∀ k m, isUserMessage m → ∃ m', cfg.mergeTuplesFinal k m = some m'

omit [DecidableEq K] in
/-- **No lookup gets stuck**: its next step is there, and one step fewer is left after it. -/
theorem StoreInv.lookup_progress {hist : K → List Message} {seg : K → Int → List Message}
    {old : K → List Message} {seen : Fin n → K → List Message → Prop} {s : StoreState C n}
    (h : StoreInv cfg hist seg old seen s) (hmerge : MergeAssoc cfg) (hfinal : FinalTotal cfg)
    (hmeets : Meets cfg C) {t : Fin n} (hsteps : 0 < (s.thread t).lookupSteps) (plan : C.Plan) :
    ∃ s', pcNext cfg s t plan = some s' ∧ (s'.thread t).lookupSteps < (s.thread t).lookupSteps := by
  have hinv := h.thread t
  cases hpc : s.thread t <;> rw [hpc] at hinv hsteps <;> simp only [pcNext, hpc]
  case scanning async k mtGen mtGenEnd result =>
    obtain ⟨rfl, hle, hlt, newer, hseen, hfold, hnewer, -⟩ := hinv
    by_cases hend : mtGen = s.ctxt.generationRetired
    · refine ⟨s.goto t (.holding async k s.root result), by rw [coreLookupTurn, if_pos hend]; rfl, ?_⟩
      simp [StoreState.goto, Pc.lookupSteps]
    · obtain ⟨found, hfound, hread⟩ := h.shared.memtableLookup (by omega) (Int.le_of_lt hlt) k result
      obtain ⟨x, hx, hxuser⟩ := foldAll_total (hmerge k) hnewer
      obtain ⟨y, hy, hyuser⟩ := foldAll_total (hmerge k) (h.shared.seg_user k mtGen)
      rw [hfold, Option.some.injEq] at hx
      rw [hfound, Option.some.injEq] at hy
      subst hx hy
      obtain ⟨merged, hmerged, -⟩ := combine_total (hmerge k) hxuser hyuser
      have hturn : coreMemtableLookup cfg s mtGen k result = some merged := hread.trans hmerged
      refine ⟨_, by rw [coreLookupTurn, if_neg hend, hturn]; rfl, ?_⟩
      simp only [StoreState.goto, Function.update_self]
      split
      · simp [Pc.lookupSteps]
      · simp only [Pc.lookupSteps]
        omega
  case holding async k root result =>
    obtain ⟨older, hvalue, newer, hseen, hfold, hnewer, holder⟩ := hinv
    obtain ⟨x, hx, hxuser⟩ := foldAll_total (hmerge k) hnewer
    obtain ⟨y, hy, hyuser⟩ := foldAll_total (hmerge k) holder
    rw [hfold, Option.some.injEq] at hx
    subst hx
    obtain ⟨merged, hmerged, hmuser⟩ := combine_total (hmerge k) hxuser hyuser
    have htrunk : (if async then C.trunkMergeLookupAsync root k result
        else C.trunkMergeLookup root k result) = some merged := by
      rw [hmeets.async, ite_self, hmeets.accumulate _ _ _ hxuser, hvalue, hy, Option.bind_some]
      exact hmerged
    obtain ⟨final, hmergeFinal⟩ : ∃ final, mergeFinal cfg k merged = some final := by
      cases merged with
      | none => exact ⟨none, rfl⟩
      | some m =>
          by_cases hdef : m.isDefinitive = true
          · exact ⟨some m, if_pos hdef⟩
          · obtain ⟨m', hm'⟩ := hfinal k m (hmuser m rfl)
            exact ⟨some m', by simp [mergeFinal, DataConfig.dataMergeTuplesFinal, hdef, hm']⟩
    refine ⟨_, by rw [coreLookupTrunk, htrunk, Option.bind_some, hmergeFinal]; rfl, ?_⟩
    simp [StoreState.goto, Pc.lookupSteps]
  all_goals exact absurd hsteps (Nat.lt_irrefl 0)

/-- **The store is a map of folded messages.**  In every run, whatever a lookup of `k` has
returned is the finalised fold, newest first, of exactly the messages inserted for `k` before the
step in which the lookup read the newest memtable; and a lookup that has started always has a
next step, with fewer and fewer left. -/
theorem coreLookup_returns_fold {tr : List (StoreState C n × Fin n × StoreAct C)}
    {s s' : StoreState C n} (hmerge : MergeAssoc cfg) (hfinal : FinalTotal cfg)
    (hmeets : Meets cfg C) (hinit : (storeSystem cfg C n).init s)
    (hrun : (storeSystem cfg C n).Run s tr s') (t : Fin n) :
    (∀ k answer, s'.thread t = .returned k answer →
      ∃ before, LookedUp tr t k before ∧
        finalFold cfg k (insertedFor k before) = some answer) ∧
      ∀ plan, 0 < (s'.thread t).lookupSteps →
        ∃ s'', (storeSystem cfg C n).step s' (t, .next plan) s'' ∧
          (s''.thread t).lookupSteps < (s'.thread t).lookupSteps := by
  obtain ⟨seg, old, hinv⟩ := traceInv_run hmerge hmeets hinit hrun
  constructor
  · intro k answer hreturned
    have hthread := hinv.thread t
    rw [hreturned] at hthread
    obtain ⟨msgs, ⟨before, hbefore, rfl⟩, hfold⟩ := hthread
    exact ⟨before, hbefore, hfold⟩
  · intro plan hsteps
    exact hinv.lookup_progress hmerge hfinal hmeets hsteps plan

/-! ## An instance -/

def appendConfig : DataConfig Nat where
  mergeTuples _ old new := some ⟨old.type, old.data ++ new.data⟩
  mergeTuplesFinal _ m := some ⟨.insert, m.data⟩

@[reducible] def mapComponents : Components Nat where
  Tree := Nat → Option Message
  Branch := Nat → Option Message
  Root := Nat → Option Message
  Plan := Unit
  btreeCreate := fun _ => none
  btreeInsert tree k msg :=
    (mergeUnder appendConfig k (some msg) (tree k)).map (Function.update tree k)
  btreeLookup tree k := tree k
  btreePack := some
  branchLookup branch k := branch k
  emptyRoot := fun _ => none
  trunkIncorporatePrepare _ root branch :=
    some fun k => (mergeUnder appendConfig k (branch k) (root k)).getD none
  trunkModify _ root := some root
  trunkMergeLookup root k acc := mergeUnder appendConfig k acc (root k)
  trunkMergeLookupAsync root k acc := mergeUnder appendConfig k acc (root k)

theorem mergeAssoc_append : MergeAssoc appendConfig := by
  intro k
  constructor
  · rintro ⟨ta, da⟩ ⟨tb, db⟩ ha hb
    rcases ha with rfl | rfl | rfl <;> rcases hb with rfl | rfl | rfl <;>
      exact ⟨_, rfl, by simp [isUserMessage]⟩
  · rintro ⟨ta, da⟩ ⟨tb, db⟩ ⟨tc, dc⟩ ha hb hc
    rcases ha with rfl | rfl | rfl <;> rcases hb with rfl | rfl | rfl <;>
      rcases hc with rfl | rfl | rfl <;>
      simp [mergeOp, DataConfig.dataMergeTuples, appendConfig, Message.isDefinitive]

private theorem mergeUnder_append (k : Nat) (acc older : Option Message) :
    ∃ merged, mergeUnder appendConfig k acc older = some merged := by
  cases acc with
  | none => exact ⟨older, combine_none_left older⟩
  | some newer =>
      cases older with
      | none => exact ⟨some newer, rfl⟩
      | some older =>
          simp only [mergeUnder, combine_some_some, DataConfig.dataMergeTuples, appendConfig]
          split
          · exact ⟨_, rfl⟩
          · split
            · exact ⟨_, rfl⟩
            · exact ⟨_, rfl⟩

private theorem meets_map : Meets appendConfig mapComponents where
  create _ := rfl
  insert tree k msg tree' _ hinsert := by
    obtain ⟨merged, hmerged, rfl⟩ := Option.map_eq_some_iff.mp hinsert
    refine ⟨?_, fun k' hk => Function.update_of_ne hk merged tree⟩
    change mergeUnder appendConfig k (some msg) (tree k) = some (Function.update tree k merged k)
    rw [hmerged, Function.update_self]
  pack tree branch hpack k := by
    cases hpack
    rfl
  emptyRoot _ := rfl
  incorporate _ root branch root' hprepare k := by
    cases hprepare
    obtain ⟨merged, hmerged⟩ := mergeUnder_append k (branch k) (root k)
    change mergeUnder appendConfig k none ((mergeUnder appendConfig k (branch k) (root k)).getD none) =
      (mergeUnder appendConfig k none (root k)).bind (mergeUnder appendConfig k (branch k))
    rw [hmerged, Option.getD_some, mergeUnder, combine_none_left, combine_none_left,
      Option.bind_some]
    exact hmerged.symm
  modify _ root root' hmodify k := by
    cases hmodify
    rfl
  accumulate root k acc _ := by
    change mergeUnder appendConfig k acc (root k) =
      (mergeUnder appendConfig k none (root k)).bind (mergeUnder appendConfig k acc)
    rw [mergeUnder, combine_none_left, Option.bind_some]
  async _ _ _ := rfl

/-- Three updates of one key: the first is in the trunk, the second in a packed branch, the third
in the active memtable.  A fourth comes when the lookup is about to enter the trunk. -/
theorem coreLookup_returns_three_updates :
    ∃ tr last, (storeSystem appendConfig mapComponents 3).Run (newStore mapComponents 3) tr last ∧
      last.thread 1 = .returned 5 (some ⟨.insert, [1, 2, 3]⟩) ∧
      ∃ before, LookedUp tr 1 5 before ∧
        finalFold appendConfig 5 (insertedFor 5 before) = some (some ⟨.insert, [1, 2, 3]⟩) := by
  let update (x : UInt8) : Fin 3 × StoreAct mapComponents := (2, .insert 5 ⟨.update, [x]⟩)
  let next (t : Fin 3) : Fin 3 × StoreAct mapComponents := (t, .next ())
  let acts : List (Fin 3 × StoreAct mapComponents) :=
    [update 1, (2, .rotate), (0, .compact 0), next 0, next 0, next 0, next 0, next 0, next 0,
      (0, .recycle 0), update 2, (2, .rotate), (0, .compact 1), next 0, next 0, update 3,
      (1, .lookup false 5), next 1, next 1, update 4, next 1]
  have hchecked : (exec (storeNext appendConfig) (newStore mapComponents 3) acts).map
      (fun run => match run.2.thread 1 with
        | .returned k answer => some (k, answer)
        | _ => none) = some (some (5, some ⟨.insert, [1, 2, 3]⟩)) := by decide +kernel
  obtain ⟨run, hexec, hlast⟩ := Option.map_eq_some_iff.mp hchecked
  have hreturned : run.2.thread 1 = .returned 5 (some ⟨.insert, [1, 2, 3]⟩) := by
    split at hlast
    · rename_i k answer hpc
      rw [Option.some.injEq, Prod.mk.injEq] at hlast
      rw [hpc, hlast.1, hlast.2]
    · cases hlast
  have hrun : (storeSystem appendConfig mapComponents 3).Run (newStore mapComponents 3) run.1 run.2 :=
    run_of_exec hexec
  have hfinal : FinalTotal appendConfig := fun _ _ _ => ⟨_, rfl⟩
  have hfold := (coreLookup_returns_fold mergeAssoc_append hfinal meets_map rfl hrun 1).1 5 _ hreturned
  exact ⟨run.1, run.2, hrun, hreturned, hfold⟩

end History

end Core
end TreePass
