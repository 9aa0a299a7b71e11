import Mathlib.Data.Prod.Lex
import Forceio.Chain.HeaderChain
import Forceio.Lib.Forest
import Forceio.Lib.OrderedIndex

/-!
# The index of the fork database: `fork_multi_index_type`

Model of the `boost::multi_index_container` of `libraries/chain/fork_database.cpp`.

* A `ForkIndex` has the states in the order they were added, which serves `by_block_id` and the
  equal ranges of `by_prev` (neither key ever changes), and the two sequences of `by_block_num` and
  `by_lib_block_num`. That ids are unique and the sequences are sorted permutations of the states
  are fields of the structure.

Result:
* `byLib_modify`: a change of flags moves nothing in `by_lib_block_num`.
-/

namespace Forceio.Chain

open Forceio.Lib OrderedIndex
open List hiding head?_insert mem_filter filter_filter insert

/-! ## Block states -/

section Types

variable (Key Sig : Type)

/-- A `block_state` without the two flags that change while the fork database holds it: the header
state and the header of `block`, null for the head of a snapshot. -/
structure BlockData extends BlockHeaderState Key Sig where
  block : Option (SignedBlockHeader Key Sig)
  deriving DecidableEq

/-- `block_state`. -/
structure BlockState extends BlockData Key Sig where
  validated : Bool := false
  inCurrentChain : Bool := false
  deriving DecidableEq

end Types

variable {Key Sig : Type}

namespace BlockState

variable (b : BlockState Key Sig)

/-- The id, the predecessor and the number of a state. -/
def link : Link Sha256 := ⟨b.id, b.header.previous, b.blockNum⟩

/-- The key of `by_block_num`: the number, and at one number the current chain first. -/
def numKey : ℕ ×ₗ Bool := toLex (b.blockNum, !b.inCurrentChain)

/-- The key of `by_lib_block_num`, each component with `std::greater`. -/
def libKey : (ℕ ×ₗ ℕ ×ₗ ℕ)ᵒᵈ :=
  OrderDual.toDual (toLex (b.dposIrreversibleBlocknum,
    toLex (b.bftIrreversibleBlocknum, b.blockNum)))

/-- The state once it has been validated. -/
def validate : BlockState Key Sig := { b with validated := true }

/-- The state with its mark set or cleared. -/
def mark (inCurrentChain : Bool) (b : BlockState Key Sig) : BlockState Key Sig :=
  { b with inCurrentChain := inCurrentChain }

/-- The state with the confirmations `cs`. -/
def confirmedBy (cs : List (HeaderConfirmation Sig)) (b : BlockState Key Sig) :
    BlockState Key Sig :=
  { b with confirmations := cs }

/-- The state with its BFT irreversible number raised to `num`. -/
def raised (num : Nat) (b : BlockState Key Sig) : BlockState Key Sig :=
  { b with bftIrreversibleBlocknum := num }

/-- What comes first in `by_block_num` has a lower number, or the same and is marked if the other
is. -/
theorem numKey_le {a b : BlockState Key Sig} (h : a.numKey ≤ b.numKey) : a.blockNum ≤ b.blockNum ∧
      (a.blockNum = b.blockNum → b.inCurrentChain = true → a.inCurrentChain = true) := by
  rcases Prod.Lex.toLex_le_toLex.mp h with hlt | ⟨heq, hle⟩
  · exact ⟨le_of_lt hlt, fun heq => absurd heq (ne_of_lt hlt)⟩
  · refine ⟨le_of_eq heq, fun _ hb => ?_⟩
    have hle : (!a.inCurrentChain) ≤ (!b.inCurrentChain) := hle
    rw [hb] at hle
    cases ha : a.inCurrentChain with
    | true => rfl
    | false =>
      rw [ha] at hle
      exact absurd hle (by decide)

theorem validate_id : b.validate.id = b.id := rfl

theorem mark_id (c : Bool) (b : BlockState Key Sig) : (b.mark c).id = b.id := rfl

theorem confirmedBy_id (cs : List (HeaderConfirmation Sig)) (b : BlockState Key Sig) :
    (b.confirmedBy cs).id = b.id := rfl

theorem raised_id (num : Nat) (b : BlockState Key Sig) : (b.raised num).id = b.id := rfl

end BlockState

/-! ## The index -/

/-- `fork_multi_index_type`. -/
structure ForkIndex (Key Sig : Type) where
  entries : List (BlockState Key Sig)
  byBlockNum : List (BlockState Key Sig)
  byLibBlockNum : List (BlockState Key Sig)
  nodup : (entries.map fun b => b.id).Nodup
  permNum : byBlockNum.Perm entries
  permLib : byLibBlockNum.Perm entries
  sortedNum : OrderedIndex.Sorted BlockState.numKey byBlockNum
  sortedLib : OrderedIndex.Sorted BlockState.libKey byLibBlockNum

namespace ForkIndex

/-- The index without states. -/
def empty : ForkIndex Key Sig where
  entries := []
  byBlockNum := []
  byLibBlockNum := []
  nodup := nodup_nil
  permNum := List.Perm.refl _
  permLib := List.Perm.refl _
  sortedNum := List.Pairwise.nil
  sortedLib := List.Pairwise.nil

variable (idx : ForkIndex Key Sig)

/-- The links of the states. -/
def links : List (Link Sha256) := idx.entries.map BlockState.link

/-- `index.find`. -/
def find (i : Sha256) : Option (BlockState Key Sig) := idx.entries.find? fun b => b.id = i

/-- `index.insert`: fails if the id is there. -/
def insert (n : BlockState Key Sig) : Option (ForkIndex Key Sig) :=
  if h : ∃ b ∈ idx.entries, b.id = n.id then none
  else some
    { entries := idx.entries ++ [n]
      byBlockNum := OrderedIndex.insert BlockState.numKey n idx.byBlockNum
      byLibBlockNum := OrderedIndex.insert BlockState.libKey n idx.byLibBlockNum
      nodup := by
        rw [map_append, map_singleton]
        refine nodup_append.mpr ⟨idx.nodup, nodup_singleton _, fun a ha b hb => ?_⟩
        obtain ⟨x, hx, rfl⟩ := mem_map.mp ha
        rw [mem_singleton.mp hb]
        exact fun heq => h ⟨x, hx, heq⟩
      permNum := (perm_insert n _).trans
        ((idx.permNum.cons n).trans (perm_append_singleton n _).symm)
      permLib := (perm_insert n _).trans
        ((idx.permLib.cons n).trans (perm_append_singleton n _).symm)
      sortedNum := sorted_insert n idx.sortedNum
      sortedLib := sorted_insert n idx.sortedLib }

/-- Keep the states with property `p`. -/
def filter (p : BlockState Key Sig → Bool) : ForkIndex Key Sig where
  entries := idx.entries.filter p
  byBlockNum := idx.byBlockNum.filter p
  byLibBlockNum := idx.byLibBlockNum.filter p
  nodup := idx.nodup.sublist (filter_sublist.map _)
  permNum := idx.permNum.filter p
  permLib := idx.permLib.filter p
  sortedNum := idx.sortedNum.sublist filter_sublist
  sortedLib := idx.sortedLib.sublist filter_sublist

/-- `index.erase`. -/
def erase (i : Sha256) : ForkIndex Key Sig := idx.filter fun b => b.id ≠ i

/-- The ids `by_prev` has in the equal range of `i`. -/
def children (i : Sha256) : List Sha256 :=
  (idx.entries.filter fun b => b.header.previous = i).map fun b => b.id

variable {idx}

theorem countP_id_le (l : List (BlockState Key Sig)) (hl : l.Perm idx.entries) (i : Sha256) :
    l.countP (fun b => decide (b.id = i)) ≤ 1 := by
  have h := nodup_iff_count_le_one.mp idx.nodup i
  rw [count, countP_map] at h
  rw [hl.countP_eq]
  exact le_trans (le_of_eq (countP_congr fun b _ => by simp)) h

variable (idx)

/-- `index.modify` on the state with id `i`, with a change that keeps the id. -/
def modify (i : Sha256) (f : BlockState Key Sig → BlockState Key Sig)
    (hf : ∀ b, (f b).id = b.id) : ForkIndex Key Sig where
  entries := mapWhere (fun b => b.id = i) f idx.entries
  byBlockNum := OrderedIndex.modify BlockState.numKey (fun b => b.id = i) f idx.byBlockNum
  byLibBlockNum := OrderedIndex.modify BlockState.libKey (fun b => b.id = i) f idx.byLibBlockNum
  nodup := by
    have hmap : (mapWhere (fun b => decide (b.id = i)) f idx.entries).map
        (fun b => b.id) = idx.entries.map fun b => b.id := by
      unfold mapWhere
      rw [map_map]
      refine map_congr_left fun b _ => ?_
      simp only [Function.comp]
      split
      · exact hf b
      · rfl
    rw [hmap]
    exact idx.nodup
  permNum := (perm_modify f (countP_id_le _ idx.permNum i)).trans
    (idx.permNum.map _)
  permLib := (perm_modify f (countP_id_le _ idx.permLib i)).trans
    (idx.permLib.map _)
  sortedNum := sorted_modify f idx.sortedNum (countP_id_le _ idx.permNum i)
  sortedLib := sorted_modify f idx.sortedLib (countP_id_le _ idx.permLib i)

/-- Raise the BFT irreversible number of the state with id `i`. -/
def raise (i : Sha256) (num : Nat) : ForkIndex Key Sig :=
  idx.modify i (BlockState.raised num) (BlockState.raised_id num)

end ForkIndex

/-! ## Looking up, inserting, filtering, modifying -/

namespace ForkIndex

variable {idx idx' : ForkIndex Key Sig}

theorem ext (h1 : idx.entries = idx'.entries) (h2 : idx.byBlockNum = idx'.byBlockNum)
    (h3 : idx.byLibBlockNum = idx'.byLibBlockNum) : idx = idx' := by
  cases idx
  congr

variable {b n : BlockState Key Sig}

theorem eq_of_id {a : BlockState Key Sig} (ha : a ∈ idx.entries) (hb : b ∈ idx.entries)
    (h : a.id = b.id) : a = b :=
  inj_on_of_nodup_map idx.nodup ha hb h

theorem mem_byLib : b ∈ idx.byLibBlockNum ↔ b ∈ idx.entries :=
  idx.permLib.mem_iff

theorem mem_byNum : b ∈ idx.byBlockNum ↔ b ∈ idx.entries :=
  idx.permNum.mem_iff

theorem find_eq_some_iff {i : Sha256} : idx.find i = some b ↔ b ∈ idx.entries ∧ b.id = i := by
  unfold find
  constructor
  · intro h
    exact ⟨mem_of_find?_eq_some h, by simpa using find?_some h⟩
  · rintro ⟨hb, rfl⟩
    cases hfind : idx.entries.find? fun c => c.id = b.id with
    | none => exact absurd (find?_eq_none.mp hfind b hb) (by simp)
    | some c =>
      have hid : c.id = b.id := by simpa using find?_some hfind
      rw [eq_of_id (mem_of_find?_eq_some hfind) hb hid]

theorem find_of_mem (hb : b ∈ idx.entries) : idx.find b.id = some b :=
  find_eq_some_iff.mpr ⟨hb, rfl⟩

theorem find_eq_none_iff {i : Sha256} : idx.find i = none ↔ ∀ b ∈ idx.entries, b.id ≠ i := by
  unfold find
  simp

theorem mem_links {x : Link Sha256} : x ∈ idx.links ↔ ∃ b ∈ idx.entries, b.link = x :=
  mem_map

theorem map_id_links : idx.links.map Link.id = idx.entries.map fun b => b.id := by
  unfold links
  rw [map_map]
  rfl

theorem exists_best (hb : b ∈ idx.entries) : ∃ a, idx.byLibBlockNum.head? = some a := by
  obtain ⟨a, l, hl⟩ := exists_cons_of_ne_nil (ne_nil_of_mem (mem_byLib.mpr hb))
  exact ⟨a, by rw [hl]; rfl⟩

theorem exists_oldest (hb : b ∈ idx.entries) : ∃ a, idx.byBlockNum.head? = some a := by
  obtain ⟨a, l, hl⟩ := exists_cons_of_ne_nil (ne_nil_of_mem (mem_byNum.mpr hb))
  exact ⟨a, by rw [hl]; rfl⟩

theorem insert_eq_some (h : idx.insert n = some idx') :
    (∀ b ∈ idx.entries, b.id ≠ n.id) ∧ idx'.entries = idx.entries ++ [n] ∧
      idx'.byBlockNum = OrderedIndex.insert BlockState.numKey n idx.byBlockNum ∧
      idx'.byLibBlockNum = OrderedIndex.insert BlockState.libKey n idx.byLibBlockNum := by
  unfold insert at h
  split at h
  · simp at h
  · rename_i hnot
    obtain rfl := Option.some.inj h
    exact ⟨fun b hb heq => hnot ⟨b, hb, heq⟩, rfl, rfl, rfl⟩

theorem insert_of_fresh (h : ∀ b ∈ idx.entries, b.id ≠ n.id) :
    ∃ idx', idx.insert n = some idx' := by
  unfold insert
  rw [dif_neg]
  · exact ⟨_, rfl⟩
  · rintro ⟨b, hb, heq⟩
    exact h b hb heq

section

variable (h : idx.insert n = some idx')

include h

theorem mem_insert : b ∈ idx'.entries ↔ b ∈ idx.entries ∨ b = n := by
  rw [(insert_eq_some h).2.1, mem_append, mem_singleton]

theorem forall_mem_insert {P : BlockState Key Sig → Prop} :
    (∀ b ∈ idx'.entries, P b) ↔ (∀ b ∈ idx.entries, P b) ∧ P n := by
  simp only [mem_insert h, or_imp, forall_and, forall_eq]

/-- The first state after an insertion: the new one only if it is better than all others. -/
theorem head_insert : idx'.byLibBlockNum.head? =
      match idx.byLibBlockNum.head? with
      | none => some n
      | some b => if n.libKey < b.libKey then some n else some b := by
  rw [(insert_eq_some h).2.2.2, head?_insert]
  cases idx.byLibBlockNum.head? <;> rfl

theorem links_insert : idx'.links = idx.links ++ [n.link] := by
  unfold links
  rw [(insert_eq_some h).2.1, map_append, map_singleton]

end

theorem mem_filter {p : BlockState Key Sig → Bool} :
    b ∈ (idx.filter p).entries ↔ b ∈ idx.entries ∧ p b = true :=
  List.mem_filter

theorem filter_filter (p q : BlockState Key Sig → Bool) :
    (idx.filter p).filter q = idx.filter fun b => p b && q b := by
  refine ext ?_ ?_ ?_ <;>
  · show List.filter q (List.filter p _) = List.filter _ _
    rw [List.filter_filter]
    exact filter_congr fun b _ => Bool.and_comm _ _

theorem filter_true {p : BlockState Key Sig → Bool} (h : ∀ b ∈ idx.entries, p b = true) :
    idx.filter p = idx := by
  refine ext ?_ ?_ ?_
  · exact filter_eq_self.mpr h
  · exact filter_eq_self.mpr fun b hb => h b (mem_byNum.mp hb)
  · exact filter_eq_self.mpr fun b hb => h b (mem_byLib.mp hb)

theorem links_filter (p : Sha256 → Bool) :
    (idx.filter fun b => p b.id).links = idx.links.filter fun x => p x.id := by
  unfold links
  rw [filter_map]
  rfl

theorem children_eq (i : Sha256) : idx.children i = Forest.children idx.links i := by
  unfold children Forest.children links
  rw [filter_map, map_map]
  rfl

section Modify

variable {i : Sha256} {f : BlockState Key Sig → BlockState Key Sig} {hf : ∀ b, (f b).id = b.id}

theorem mem_modify {b : BlockState Key Sig} : b ∈ (idx.modify i f hf).entries ↔
      ∃ a ∈ idx.entries, b = if a.id = i then f a else a := by
  show b ∈ mapWhere _ f idx.entries ↔ _
  unfold mapWhere
  rw [mem_map]
  simp only [decide_eq_true_eq]
  exact exists_congr fun a => and_congr_right fun _ => eq_comm

theorem links_modify (hlink : ∀ b, (f b).link = b.link) : (idx.modify i f hf).links = idx.links := by
  show (mapWhere _ f idx.entries).map BlockState.link = idx.entries.map BlockState.link
  unfold mapWhere
  rw [map_map]
  refine map_congr_left fun b _ => ?_
  simp only [Function.comp]
  split
  · exact hlink b
  · rfl

/-- A change that keeps the key of `by_lib_block_num` keeps its order. -/
theorem byLib_modify (hkey : ∀ b, (f b).libKey = b.libKey) : (idx.modify i f hf).byLibBlockNum =
      mapWhere (fun b => b.id = i) f idx.byLibBlockNum :=
  OrderedIndex.modify_eq_mapWhere idx.sortedLib (countP_id_le _ idx.permLib i)
    fun b _ _ => hkey b

theorem head_modify (hkey : ∀ b, (f b).libKey = b.libKey) :
    (idx.modify i f hf).byLibBlockNum.head? =
      idx.byLibBlockNum.head?.map fun b => if b.id = i then f b else b := by
  rw [byLib_modify hkey]
  unfold mapWhere
  rw [head?_map]
  simp only [decide_eq_true_eq]

end Modify

/-- The index after `remove`. -/
def removed (idx : ForkIndex Key Sig) (i : Sha256) : ForkIndex Key Sig :=
  idx.filter fun b => b.id ∉ Forest.removeIds (idx.entries.length + 1) [i] idx.links

end ForkIndex

end Forceio.Chain
