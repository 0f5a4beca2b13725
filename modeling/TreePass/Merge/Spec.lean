import TreePass.Merge.Queue
import Mathlib.Data.List.Dedup

/-!
# What a drain is meant to yield

The purpose of a merge iterator, stated on the contents of its inputs alone: the keys that occur
in some input, each once and in the direction of travel, with the fold of their messages from
the newest input to the oldest.  `emissions` is the same thing computed along the sorted list of
all tagged tuples, group by group, as the iterator does; `emissions_eq_mergeSpec` says that both
agree.
-/

namespace TreePass
namespace Merge

open Lib

variable {K : Type} [LinearOrder K]

instance (forwards : Bool) (a b : K) : Decidable (keyLt forwards a b) :=
  inferInstanceAs (Decidable (if forwards then a < b else b < a))

instance (forwards : Bool) (x y : Tagged K) : Decidable (tagBefore forwards x y) :=
  inferInstanceAs (Decidable (keyLt forwards x.key y.key ∨ x.key = y.key ∧ y.seq < x.seq))

/-- The keys that occur among some tuples, each once, in the direction of travel. -/
def keysInOrder (forwards : Bool) (keys : List K) : List K :=
  keys.dedup.insertionSort fun a b => ¬ keyLt forwards b a

def inputKeys (forwards : Bool) (inputs : List (Cursor (Tuple K))) : List K :=
  inputs.flatMap fun c => (c.remaining forwards).map (·.key)

/-- The messages of a key, from the newest input to the oldest. -/
def messagesFor (forwards : Bool) (inputs : List (Cursor (Tuple K))) (k : K) : List Message :=
  inputs.reverse.filterMap fun c =>
    ((c.remaining forwards).find? fun t => t.key = k).map (·.msg)

/-- The message for a key: its messages folded from newest to oldest, and in a full merge
finalised. -/
def mergedMessage (cfg : DataConfig K) (finalize : Bool) (k : K) : List Message → Option Message
  | [] => none
  | newest :: older => (cfg.foldUnder k newest older).bind fun m =>
      if m.type ≠ .insert ∧ finalize = true then cfg.dataMergeTuplesFinal k m else some m

def isDropped (full : Bool) (m : Message) : Bool := m.type == .delete && full

/-- The tuples a merge of the given keys yields; deletes are dropped in a full merge. -/
def mergeKeys (cfg : DataConfig K) (full : Bool) (keys : List K) (messages : K → List Message) :
    Option (List (Tuple K)) := do
  let merged ← keys.mapM fun k => (mergedMessage cfg full k (messages k)).map (Tuple.mk k)
  pure (merged.filter fun t => !isDropped full t.msg)

/-- **The specification of a merging drain.** -/
def mergeSpec (cfg : DataConfig K) (full forwards : Bool) (inputs : List (Cursor (Tuple K))) :
    Option (List (Tuple K)) :=
  mergeKeys cfg full (keysInOrder forwards (inputKeys forwards inputs))
    (messagesFor forwards inputs)

/-! ## Keys in order -/

section Keys

variable {forwards : Bool}

theorem not_keyLt_total (a b : K) : ¬ keyLt forwards b a ∨ ¬ keyLt forwards a b := by
  by_cases h : keyLt forwards b a
  · exact Or.inr fun h' => keyLt_irrefl a (keyLt_trans h' h)
  · exact Or.inl h

theorem not_keyLt_trans {a b c : K} (hab : ¬ keyLt forwards b a) (hbc : ¬ keyLt forwards c b) :
    ¬ keyLt forwards c a := by
  intro hca
  rcases keyLt_trichotomy forwards a b with h | h | h
  · exact hbc (keyLt_trans hca h)
  · exact hbc (h ▸ hca)
  · exact hab h

instance : Std.Total fun a b : K => ¬ keyLt forwards b a := ⟨not_keyLt_total⟩

instance : IsTrans K fun a b => ¬ keyLt forwards b a := ⟨fun _ _ _ => not_keyLt_trans⟩

theorem mem_keysInOrder {keys : List K} {k : K} : k ∈ keysInOrder forwards keys ↔ k ∈ keys := by
  rw [keysInOrder, List.mem_insertionSort, List.mem_dedup]

theorem keysInOrder_sorted (keys : List K) : (keysInOrder forwards keys).Pairwise (keyLt forwards) := by
  have hweak : (keysInOrder forwards keys).Pairwise fun a b => ¬ keyLt forwards b a :=
    List.pairwise_insertionSort _ _
  have hnodup : (keysInOrder forwards keys).Nodup :=
    (List.perm_insertionSort _ _).nodup_iff.mpr (List.nodup_dedup keys)
  refine (hweak.and hnodup).imp ?_
  rintro a b ⟨hnot, hne⟩
  rcases keyLt_trichotomy forwards a b with h | h | h
  · exact h
  · exact absurd h hne
  · exact absurd h hnot

theorem eq_keysInOrder {keys l : List K} (hsorted : l.Pairwise (keyLt forwards))
    (hmem : ∀ k, k ∈ l ↔ k ∈ keys) : l = keysInOrder forwards keys := by
  have hsorted' : (keysInOrder forwards keys).Pairwise (keyLt forwards) := keysInOrder_sorted keys
  have hperm : l.Perm (keysInOrder forwards keys) := by
    refine (List.perm_ext_iff_of_nodup (hsorted.imp keyLt_ne) (hsorted'.imp keyLt_ne)).mpr ?_
    intro k
    rw [hmem, mem_keysInOrder]
  exact hperm.eq_of_pairwise
    (fun a b _ _ hab hba => absurd (keyLt_trans hab hba) (keyLt_irrefl a)) hsorted hsorted'

end Keys

/-! ## Group by group -/

def nextGroup (k : K) (L : List (Tagged K)) : List (Tagged K) := L.dropWhile fun x => x.key = k

def restOfGroup (k : K) (L : List (Tagged K)) : List (Tagged K) := L.takeWhile fun x => x.key = k

theorem nextGroup_length_le (k : K) (L : List (Tagged K)) : (nextGroup k L).length ≤ L.length :=
  (List.dropWhile_suffix _).length_le

theorem restOfGroup_append (k : K) (L : List (Tagged K)) :
    restOfGroup k L ++ nextGroup k L = L := List.takeWhile_append_dropWhile

theorem key_of_mem_restOfGroup {k : K} {L : List (Tagged K)} {x : Tagged K}
    (h : x ∈ restOfGroup k L) : x.key = k := by
  have hall := List.all_eq_true.mp (List.all_takeWhile (p := fun x : Tagged K => decide (x.key = k))
    (l := L)) x h
  exact of_decide_eq_true hall

/-- The tuples of a merging drain along the sorted list of all tagged tuples. -/
def emissions (cfg : DataConfig K) (full : Bool) : List (Tagged K) → Option (List (Tuple K))
  | [] => some []
  | t :: L =>
      (mergedMessage cfg full t.key (t.msg :: (restOfGroup t.key L).map (·.msg))).bind fun m =>
        (emissions cfg full (nextGroup t.key L)).map fun rest =>
          if isDropped full m then rest else ⟨t.key, m⟩ :: rest
termination_by L => L.length
decreasing_by exact Nat.lt_succ_of_le (nextGroup_length_le _ _)

/-- The messages of a key in the order of a list of tagged tuples. -/
def taggedMessages (L : List (Tagged K)) (k : K) : List Message :=
  (L.filter fun x => x.key = k).map (·.msg)

section Groups

variable {forwards : Bool} {t : Tagged K} {L : List (Tagged K)}

theorem keyLt_of_mem_nextGroup (hsorted : (t :: L).Pairwise (tagBefore forwards)) {x : Tagged K}
    (hx : x ∈ nextGroup t.key L) : keyLt forwards t.key x.key := by
  obtain ⟨hfirst, hL⟩ := List.pairwise_cons.mp hsorted
  have hsuffix : nextGroup t.key L <:+ L := List.dropWhile_suffix _
  cases hnext : nextGroup t.key L with
  | nil =>
      rw [hnext] at hx
      cases hx
  | cons y rest =>
      have hykey : y.key ≠ t.key := by
        have := List.head_dropWhile_not (fun x : Tagged K => decide (x.key = t.key))
          (l := L) (by rw [show L.dropWhile _ = nextGroup t.key L from rfl, hnext]; simp)
        have hhead : (L.dropWhile fun x : Tagged K => decide (x.key = t.key)) = y :: rest := hnext
        simpa [hhead] using this
      have hy : y ∈ L := hsuffix.subset (by rw [hnext]; simp)
      have hylt : keyLt forwards t.key y.key := by
        rcases hfirst y hy with h | ⟨h, -⟩
        · exact h
        · exact absurd h.symm hykey
      have hsorted' : (y :: rest).Pairwise (tagBefore forwards) := hnext ▸ hL.sublist hsuffix.sublist
      rw [hnext] at hx
      rcases List.mem_cons.mp hx with rfl | hx
      · exact hylt
      · rcases (List.pairwise_cons.mp hsorted').1 x hx with h | ⟨h, -⟩
        · exact keyLt_trans hylt h
        · exact h ▸ hylt

theorem nextGroup_sorted (hsorted : (t :: L).Pairwise (tagBefore forwards)) (k : K) :
    (nextGroup k L).Pairwise (tagBefore forwards) :=
  (List.pairwise_cons.mp hsorted).2.sublist (List.dropWhile_suffix _).sublist

theorem keysInOrder_cons (hsorted : (t :: L).Pairwise (tagBefore forwards)) :
    keysInOrder forwards ((t :: L).map (·.key)) =
      t.key :: keysInOrder forwards ((nextGroup t.key L).map (·.key)) := by
  symm
  apply eq_keysInOrder
  · refine List.pairwise_cons.mpr ⟨?_, keysInOrder_sorted _⟩
    intro k hk
    obtain ⟨x, hx, rfl⟩ := List.mem_map.mp (mem_keysInOrder.mp hk)
    exact keyLt_of_mem_nextGroup hsorted hx
  · intro k
    have hsplit := restOfGroup_append t.key L
    rw [List.mem_cons, mem_keysInOrder, List.map_cons, List.mem_cons]
    constructor
    · rintro (h | h)
      · exact Or.inl h
      · exact Or.inr (by rw [← hsplit, List.map_append]; exact List.mem_append_right _ h)
    · rintro (h | h)
      · exact Or.inl h
      · rw [← hsplit, List.map_append] at h
        rcases List.mem_append.mp h with h | h
        · obtain ⟨x, hx, rfl⟩ := List.mem_map.mp h
          exact Or.inl (key_of_mem_restOfGroup hx)
        · exact Or.inr h

theorem taggedMessages_first (hsorted : (t :: L).Pairwise (tagBefore forwards)) :
    taggedMessages (t :: L) t.key = t.msg :: (restOfGroup t.key L).map (·.msg) := by
  have hgroup : (restOfGroup t.key L).filter (fun x => decide (x.key = t.key)) =
      restOfGroup t.key L :=
    List.filter_eq_self.mpr fun x hx => decide_eq_true (key_of_mem_restOfGroup hx)
  have hlater : (nextGroup t.key L).filter (fun x => decide (x.key = t.key)) = [] :=
    List.filter_eq_nil_iff.mpr fun x hx h =>
      keyLt_ne (keyLt_of_mem_nextGroup hsorted hx) (of_decide_eq_true h).symm
  have hL : L.filter (fun x => decide (x.key = t.key)) = restOfGroup t.key L := by
    conv_lhs => rw [← restOfGroup_append t.key L]
    rw [List.filter_append, hgroup, hlater, List.append_nil]
  rw [taggedMessages, List.filter_cons_of_pos (by simp), hL, List.map_cons]

theorem taggedMessages_later {k : K} (hk : k ≠ t.key) :
    taggedMessages (t :: L) k = taggedMessages (nextGroup t.key L) k := by
  have hgroup : (restOfGroup t.key L).filter (fun x => decide (x.key = k)) = [] :=
    List.filter_eq_nil_iff.mpr fun x hx h =>
      hk ((of_decide_eq_true h).symm.trans (key_of_mem_restOfGroup hx))
  have hL : L.filter (fun x => decide (x.key = k)) =
      (nextGroup t.key L).filter fun x => decide (x.key = k) := by
    conv_lhs => rw [← restOfGroup_append t.key L]
    rw [List.filter_append, hgroup, List.nil_append]
  rw [taggedMessages, List.filter_cons_of_neg (by simpa using hk.symm), hL, taggedMessages]

theorem mapM_congr {α β : Type} {f g : α → Option β} :
    ∀ l : List α, (∀ x ∈ l, f x = g x) → l.mapM f = l.mapM g := by
  intro l
  induction l with
  | nil => intro _; rfl
  | cons x l ih =>
      intro h
      rw [List.mapM_cons, List.mapM_cons, h x (by simp), ih fun y hy => h y (by simp [hy])]

theorem emissions_eq_mergeKeys (cfg : DataConfig K) (full : Bool) :
    ∀ L : List (Tagged K), L.Pairwise (tagBefore forwards) →
      emissions cfg full L =
        mergeKeys cfg full (keysInOrder forwards (L.map (·.key))) (taggedMessages L) := by
  intro L
  induction L using emissions.induct with
  | case1 =>
      intro _
      rw [emissions]
      rfl
  | case2 t L ih =>
      intro hsorted
      rw [emissions, ih (nextGroup_sorted hsorted _), keysInOrder_cons hsorted]
      simp only [mergeKeys, List.mapM_cons, taggedMessages_first hsorted]
      have htail : ∀ k ∈ keysInOrder forwards ((nextGroup t.key L).map (·.key)),
          (mergedMessage cfg full k (taggedMessages (nextGroup t.key L) k)).map (Tuple.mk k) =
            (mergedMessage cfg full k (taggedMessages (t :: L) k)).map (Tuple.mk k) := by
        intro k hk
        obtain ⟨x, hx, rfl⟩ := List.mem_map.mp (mem_keysInOrder.mp hk)
        rw [taggedMessages_later (keyLt_ne (keyLt_of_mem_nextGroup hsorted hx)).symm]
      rw [mapM_congr _ htail]
      cases mergedMessage cfg full t.key (t.msg :: (restOfGroup t.key L).map (·.msg)) with
      | none => rfl
      | some m =>
          cases (keysInOrder forwards ((nextGroup t.key L).map (·.key))).mapM fun k =>
              (mergedMessage cfg full k (taggedMessages (t :: L) k)).map (Tuple.mk k) with
          | none => rfl
          | some merged =>
              cases hdrop : isDropped full m <;>
                simp [hdrop]

end Groups

/-! ## The tuples of the inputs -/

/-- Each input with its position in the array, as `merge_iterator_create` stores them. -/
def inputArray (inputs : List (Cursor (Tuple K))) : List (InputIterator K) :=
  inputs.mapIdx fun seq itor => { itor := itor, seq := seq, nextKeyEqual := false }

def inputPending (forwards : Bool) (array : List (InputIterator K)) : List (Tagged K) :=
  array.flatMap (pending forwards)

def sortTagged (forwards : Bool) (L : List (Tagged K)) : List (Tagged K) :=
  L.insertionSort fun x y => ¬ tagBefore forwards y x

section Inputs

variable {forwards : Bool}

theorem not_tagBefore_trans {x y z : Tagged K} (hxy : ¬ tagBefore forwards y x)
    (hyz : ¬ tagBefore forwards z y) : ¬ tagBefore forwards z x := by
  rintro (hlt | ⟨hkey, hseq⟩)
  · rcases keyLt_trichotomy forwards y.key x.key with h | h | h
    · exact hxy (Or.inl h)
    · exact hyz (Or.inl (h ▸ hlt))
    · exact hyz (Or.inl (keyLt_trans hlt h))
  · rcases keyLt_trichotomy forwards y.key x.key with h | h | h
    · exact hxy (Or.inl h)
    · by_cases hlt : x.seq < y.seq
      · exact hxy (Or.inr ⟨h, hlt⟩)
      · exact hyz (Or.inr ⟨hkey.trans h.symm, by omega⟩)
    · exact hyz (Or.inl (hkey ▸ h))

instance : Std.Total fun x y : Tagged K => ¬ tagBefore forwards y x :=
  ⟨fun x y => by
    by_cases h : tagBefore forwards y x
    · exact Or.inr (tagBefore_asymm h)
    · exact Or.inl h⟩

instance : IsTrans (Tagged K) fun x y => ¬ tagBefore forwards y x :=
  ⟨fun _ _ _ => not_tagBefore_trans⟩

def Comparable (forwards : Bool) (x y : Tagged K) : Prop :=
  tagBefore forwards x y ∨ tagBefore forwards y x

theorem sortTagged_perm (L : List (Tagged K)) : (sortTagged forwards L).Perm L :=
  List.perm_insertionSort _ _

theorem sortTagged_sorted {L : List (Tagged K)} (h : L.Pairwise (Comparable forwards)) :
    (sortTagged forwards L).Pairwise (tagBefore forwards) := by
  have hcomparable : (sortTagged forwards L).Pairwise (Comparable forwards) :=
    ((sortTagged_perm L).pairwise_iff fun h => Or.symm h).mpr h
  have hweak : (sortTagged forwards L).Pairwise fun x y => ¬ tagBefore forwards y x :=
    List.pairwise_insertionSort _ _
  refine (hweak.and hcomparable).imp ?_
  rintro x y ⟨hnot, hxy | hyx⟩
  · exact hxy
  · exact absurd hyx hnot

theorem inputPending_comparable {array : List (InputIterator K)}
    (hseqs : array.Pairwise fun a b => a.seq ≠ b.seq)
    (hordered : ∀ i ∈ array, i.itor.items.Pairwise fun a b => a.key < b.key) :
    (inputPending forwards array).Pairwise (Comparable forwards) := by
  refine List.pairwise_flatMap.mpr ⟨?_, ?_⟩
  · intro i hi
    exact (pending_sorted (hordered i hi)).imp fun h => Or.inl (Or.inl h)
  · refine hseqs.imp ?_
    intro a b hab x hx y hy
    apply tagBefore_total
    rw [seq_of_mem_pending hx, seq_of_mem_pending hy]
    exact hab

variable {inputs : List (Cursor (Tuple K))}

omit [LinearOrder K] in
theorem mem_inputArray {i : InputIterator K} :
    i ∈ inputArray inputs ↔
      ∃ (seq : Nat) (c : Cursor (Tuple K)), inputs[seq]? = some c ∧ i = ⟨c, seq, false⟩ := by
  rw [inputArray, List.mem_mapIdx]
  constructor
  · rintro ⟨seq, hlt, rfl⟩
    exact ⟨seq, inputs[seq], List.getElem?_eq_getElem hlt, rfl⟩
  · rintro ⟨seq, c, hget, rfl⟩
    obtain ⟨hlt, rfl⟩ := List.getElem?_eq_some_iff.mp hget
    exact ⟨seq, hlt, rfl⟩

omit [LinearOrder K] in
theorem inputArray_seqs : (inputArray inputs).Pairwise fun a b => a.seq ≠ b.seq := by
  rw [List.pairwise_iff_getElem]
  intro i j hi hj hij
  simp only [inputArray, List.getElem_mapIdx]
  omega

omit [LinearOrder K] in
theorem inputPending_keys :
    (inputPending forwards (inputArray inputs)).map (·.key) = inputKeys forwards inputs := by
  have hkeys : ∀ i : InputIterator K,
      (pending forwards i).map (·.key) = (i.itor.remaining forwards).map (·.key) := by
    intro i
    rw [pending, List.map_map]
    rfl
  have hitors : (inputArray inputs).map (·.itor) = inputs := by
    apply List.ext_getElem
    · simp [inputArray]
    · intro n _ _
      simp [inputArray]
  rw [inputPending, List.map_flatMap]
  simp only [hkeys]
  conv_rhs => rw [inputKeys, ← hitors, List.flatMap_map]

theorem find_key_eq_some_iff {l : List (Tuple K)}
    (hsorted : l.Pairwise fun a b => keyLt forwards a.key b.key) {k : K} {t : Tuple K} :
    (l.find? fun u => u.key = k) = some t ↔ t ∈ l ∧ t.key = k := by
  induction l with
  | nil => simp
  | cons u l ih =>
      obtain ⟨hu, hl⟩ := List.pairwise_cons.mp hsorted
      by_cases hk : u.key = k
      · rw [List.find?_cons_of_pos (by simpa using hk), Option.some.injEq]
        constructor
        · rintro rfl
          exact ⟨by simp, hk⟩
        · rintro ⟨hmem, hkey⟩
          rcases List.mem_cons.mp hmem with rfl | hmem
          · rfl
          · exact absurd (hk.trans hkey.symm) (keyLt_ne (hu t hmem))
      · rw [List.find?_cons_of_neg (by simpa using hk), ih hl, List.mem_cons]
        constructor
        · rintro ⟨hmem, hkey⟩
          exact ⟨Or.inr hmem, hkey⟩
        · rintro ⟨rfl | hmem, hkey⟩
          · exact absurd hkey hk
          · exact ⟨hmem, hkey⟩

theorem taggedMessages_sorted (hordered : ∀ c ∈ inputs, c.items.Pairwise fun a b => a.key < b.key)
    (k : K) :
    taggedMessages (sortTagged forwards (inputPending forwards (inputArray inputs))) k =
      messagesFor forwards inputs k := by
  let found (i : InputIterator K) : Option (Tagged K) :=
    ((i.itor.remaining forwards).find? fun t => t.key = k).map fun t => ⟨t, i.seq⟩
  let newestFirst (x y : Tagged K) : Prop := y.seq < x.seq
  have hordered' : ∀ i ∈ inputArray inputs, i.itor.items.Pairwise fun a b => a.key < b.key := by
    intro i hi
    obtain ⟨seq, c, hget, rfl⟩ := mem_inputArray.mp hi
    exact hordered c (List.mem_of_getElem? hget)
  have hfound : ∀ i ∈ inputArray inputs, ∀ x,
      found i = some x ↔ x ∈ pending forwards i ∧ x.key = k := by
    intro i hi x
    have hsorted : (i.itor.remaining forwards).Pairwise fun a b => keyLt forwards a.key b.key :=
      (List.pairwise_map (f := fun t : Tuple K => (⟨t, i.seq⟩ : Tagged K))).mp
        (pending_sorted (hordered' i hi))
    simp only [found, Option.map_eq_some_iff, find_key_eq_some_iff hsorted, pending, List.mem_map]
    constructor
    · rintro ⟨t, ⟨ht, hkey⟩, rfl⟩
      exact ⟨⟨t, ht, rfl⟩, hkey⟩
    · rintro ⟨⟨t, ht, rfl⟩, hkey⟩
      exact ⟨t, ⟨ht, hkey⟩, rfl⟩
  have hsortedL : (sortTagged forwards (inputPending forwards (inputArray inputs))).Pairwise
      (tagBefore forwards) := sortTagged_sorted (inputPending_comparable inputArray_seqs hordered')
  -- Both lists are sorted by input, newest first, and have the same members.
  have hleft : ((sortTagged forwards (inputPending forwards (inputArray inputs))).filter
      fun x => x.key = k).Pairwise newestFirst := by
    rw [List.pairwise_filter]
    refine hsortedL.imp ?_
    intro x y hxy hx hy
    rcases hxy with h | ⟨-, h⟩
    · exact absurd ((of_decide_eq_true hx).trans (of_decide_eq_true hy).symm) (keyLt_ne h)
    · exact h
  have hright : ((inputArray inputs).reverse.filterMap found).Pairwise newestFirst := by
    rw [List.pairwise_filterMap, List.pairwise_reverse, List.pairwise_iff_getElem]
    intro i j hi hj hij x hx y hy
    have hseq : ∀ (a : InputIterator K) (z : Tagged K), found a = some z → z.seq = a.seq := by
      intro a z hz
      obtain ⟨t, -, rfl⟩ := Option.map_eq_some_iff.mp hz
      rfl
    change y.seq < x.seq
    rw [hseq _ _ hx, hseq _ _ hy]
    simpa [inputArray] using hij
  have hmem : ∀ x, x ∈ ((sortTagged forwards (inputPending forwards (inputArray inputs))).filter
      fun x => x.key = k) ↔ x ∈ (inputArray inputs).reverse.filterMap found := by
    intro x
    rw [List.mem_filter, (sortTagged_perm _).mem_iff, inputPending, List.mem_flatMap,
      List.mem_filterMap, decide_eq_true_eq]
    constructor
    · rintro ⟨⟨i, hi, hx⟩, hkey⟩
      exact ⟨i, List.mem_reverse.mpr hi, (hfound i hi x).mpr ⟨hx, hkey⟩⟩
    · rintro ⟨i, hi, hx⟩
      obtain ⟨hx, hkey⟩ := (hfound i (List.mem_reverse.mp hi) x).mp hx
      exact ⟨⟨i, List.mem_reverse.mp hi, hx⟩, hkey⟩
  have hirrefl : ∀ x y : Tagged K, newestFirst x y → x ≠ y := by
    rintro x y hxy rfl
    exact absurd hxy (lt_irrefl x.seq)
  have hsame := ((List.perm_ext_iff_of_nodup (hleft.imp fun h => hirrefl _ _ h)
    (hright.imp fun h => hirrefl _ _ h)).mpr hmem).eq_of_pairwise
      (fun x y _ _ hxy hyx => absurd (lt_trans hxy hyx) (lt_irrefl _)) hleft hright
  rw [taggedMessages, hsame, List.map_filterMap, messagesFor]
  have hitors : (inputArray inputs).map (·.itor) = inputs := by
    apply List.ext_getElem
    · simp [inputArray]
    · intro n _ _
      simp [inputArray]
  conv_rhs => rw [← hitors, ← List.map_reverse, List.filterMap_map]
  congr 1
  funext i
  simp only [found, Option.map_map]
  rfl

theorem emissions_eq_mergeSpec (cfg : DataConfig K) (full : Bool)
    (hordered : ∀ c ∈ inputs, c.items.Pairwise fun a b => a.key < b.key) :
    emissions cfg full (sortTagged forwards (inputPending forwards (inputArray inputs))) =
      mergeSpec cfg full forwards inputs := by
  have hordered' : ∀ i ∈ inputArray inputs, i.itor.items.Pairwise fun a b => a.key < b.key := by
    intro i hi
    obtain ⟨seq, c, hget, rfl⟩ := mem_inputArray.mp hi
    exact hordered c (List.mem_of_getElem? hget)
  have hsorted : (sortTagged forwards (inputPending forwards (inputArray inputs))).Pairwise
      (tagBefore forwards) := sortTagged_sorted (inputPending_comparable inputArray_seqs hordered')
  have hkeys : keysInOrder forwards
      ((sortTagged forwards (inputPending forwards (inputArray inputs))).map (·.key)) =
        keysInOrder forwards (inputKeys forwards inputs) := by
    apply eq_keysInOrder (keysInOrder_sorted _)
    intro k
    rw [mem_keysInOrder, ← inputPending_keys]
    exact ((sortTagged_perm _).map _).mem_iff
  rw [emissions_eq_mergeKeys cfg full _ hsorted, hkeys, mergeSpec]
  congr 1
  funext k
  exact taggedMessages_sorted hordered k

end Inputs

end Merge
end TreePass
