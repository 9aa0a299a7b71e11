import Forceio.Chain.HeaderChain

/-!
# Does irreversibility go back?

`dpos_irreversible_blocknum` is the value one third up the sorted map of implied irreversible
numbers. While the schedule stays, the map only grows entry by entry and so does the number. A
promotion keeps the old entries of the producers that stay: one that has not produced for long
brings a low entry into a smaller map, and the number falls below what was irreversible before
(`irreversible_goes_back`).

Result:
* `irreversible_kept_iff`: when the number is kept, step by step and along whole chains.
-/

namespace Forceio.Chain

open Forceio.Lib BlockHeaderState FlatMap HeaderPath

variable {Key Sig : Type}

/-- Among the implied numbers of the other producers, no more lie below the irreversible number than
the order statistic skips. -/
def LowEntriesSkipped (s : BlockHeaderState Key Sig) (producer : AccountName) : Prop :=
  s.producerToLastImpliedIrb.entries.countP
      (fun e => decide (e.1 ≠ producer) && decide (e.2 < s.dposIrreversibleBlocknum)) ≤
    (s.producerToLastImpliedIrb.entries.length - 1) / 3

instance (s : BlockHeaderState Key Sig) (producer : AccountName) :
    Decidable (LowEntriesSkipped s producer) :=
  inferInstanceAs (Decidable (_ ≤ _))

/-- A bound on the irreversible number of a non-empty map is a bound on the entries below it. -/
theorem le_calcDposLastIrreversible_iff {m : FlatMap AccountName Nat} (hm : m.entries ≠ [])
    {x : Nat} :
    x ≤ calcDposLastIrreversible m ↔
      m.entries.countP (fun e => decide (e.2 < x)) ≤ (m.entries.length - 1) / 3 := by
  have hlen : m.values.length = m.entries.length := List.length_map ..
  have hpos := List.length_pos_of_ne_nil hm
  unfold calcDposLastIrreversible
  rw [if_neg (by omega), le_orderStat_iff (by omega), hlen, values, List.countP_map]
  rfl

section Steps

variable [Inhabited Sig] [DecidableEq Key] {env : ChainEnv Key Sig}
  {s r : BlockHeaderState Key Sig} {l : List (BlockHeaderState Key Sig)}

/-- **One step.** The producer's new entry is the proposed number, which is never below the
irreversible one, so only the other entries matter. -/
theorem irreversible_le_iff (hs : Shape s) (hseed : Seeded s) (hr : Step env s r) :
    s.dposIrreversibleBlocknum ≤ r.dposIrreversibleBlocknum ↔
      LowEntriesSkipped s r.header.producer := by
  obtain ⟨v, hv⟩ := hseed.impliedIrb _ hr.producer_mem
  have hkey : r.header.producer ∈ s.producerToLastImpliedIrb.keys := mem_keys_iff.mpr ⟨v, hv⟩
  have hlen := length_set_of_mem hkey s.dposProposedIrreversibleBlocknum
  have hne : (s.producerToLastImpliedIrb.set r.header.producer
      s.dposProposedIrreversibleBlocknum).entries ≠ [] := by
    intro h0
    have hmem := List.length_pos_of_mem (find_eq_some_iff.mp hv)
    rw [h0, List.length_nil] at hlen
    omega
  rw [hr.spec.irreversible, le_calcDposLastIrreversible_iff hne, hlen, countP_set,
    if_neg (by rw [decide_eq_true_iff]; exact not_lt.mpr hs.irreversible), Nat.add_zero]
  rfl

variable [Inhabited Key] {g : GenesisState Key}

/-- The same for the first step, where the map is empty and the number is zero. -/
theorem HeaderChain.irreversible_le_iff (h : HeaderChain env g (s :: l)) (hr : Step env s r) :
    s.dposIrreversibleBlocknum ≤ r.dposIrreversibleBlocknum ↔
      LowEntriesSkipped s r.header.producer := by
  cases l with
  | nil =>
    cases h with
    | start => exact iff_of_true (Nat.zero_le _) (Nat.zero_le _)
  | cons t l =>
    exact Forceio.Chain.irreversible_le_iff
      (head_shape h (Shape.genesis env g)) (HeaderChain.seeded h) hr

theorem HeaderChain.isChain_irreversible_iff (h : HeaderChain env g l) :
    (l.IsChain fun b a => a.dposIrreversibleBlocknum ≤ b.dposIrreversibleBlocknum) ↔
      l.IsChain fun b a => LowEntriesSkipped a b.header.producer := by
  induction h with
  | start => simp
  | next hp hr ih =>
    rw [List.isChain_cons_cons, List.isChain_cons_cons, ih, HeaderChain.irreversible_le_iff hp hr]

/-- **When irreversibility never goes back.** For every state reachable from genesis and every
header `next` accepts, the new irreversible number is at least the old one iff the low entries of
the other producers are few enough to be skipped; and no block of the chain has a smaller number
than one of its ancestors iff this holds at every step. -/
theorem irreversible_kept_iff (h : HeaderChain env g (s :: l)) {hdr : SignedBlockHeader Key Sig}
    {skip : Bool} (hn : s.next env hdr skip = .ok r) :
    (s.dposIrreversibleBlocknum ≤ r.dposIrreversibleBlocknum ↔ LowEntriesSkipped s hdr.producer) ∧
      ((r :: s :: l).Pairwise
          (fun b a => a.dposIrreversibleBlocknum ≤ b.dposIrreversibleBlocknum) ↔
        (r :: s :: l).IsChain fun b a => LowEntriesSkipped a b.header.producer) := by
  have hr : Step env s r := ⟨hdr, skip, hn⟩
  have hhead := (next_spec hn).header
  subst hhead
  refine ⟨HeaderChain.irreversible_le_iff h hr, ?_⟩
  rw [← HeaderChain.isChain_irreversible_iff (next h hr)]
  exact List.isChain_iff_pairwise.symm

end Steps

/-- The headers of blocks 2 to 9. Producer 4 of the first schedule never produces. Block 3 proposes
the schedule of producers 1 and 4, which block 8 promotes; block 9 is the first under it. -/
def droppedHeaders : List (SignedBlockHeader Nat Nat) :=
  [toyHeader 1 1 2 3 0 0 none, toyHeader 2 2 4 1 1 0 (some ⟨1, [⟨1, 1⟩, ⟨4, 4⟩]⟩),
    toyHeader 3 4 5 2 2 0 none, toyHeader 4 5 6 3 2 0 none, toyHeader 5 6 8 1 2 0 none,
    toyHeader 6 8 9 2 2 0 none, toyHeader 7 9 10 3 2 0 none, toyHeader 8 10 12 1 2 1 none]

/-- **Irreversibility can go back**: block 8 has made block 3 irreversible, its child says 0. -/
theorem irreversible_goes_back :
    HeaderChain toyEnv (toyGenesis [1, 2, 3, 4]) (toyChain [1, 2, 3, 4] droppedHeaders) ∧
      ((toyChain [1, 2, 3, 4] droppedHeaders).map fun s => s.dposIrreversibleBlocknum) =
        [0, 3, 2, 0, 0, 0, 0, 0, 0] :=
  ⟨toyChain_headerChain (by decide), by decide⟩

/-- Block 8, which promotes the schedule, still raises the number from 2 to 3. -/
theorem irreversible_kept_promotion :
    ∃ s l r, toyChain [1, 2, 3, 4] (droppedHeaders.take 6) = s :: l ∧
      s.next toyEnv (toyHeader 7 9 10 3 2 0 none) false = .ok r ∧
      s.dposIrreversibleBlocknum = 2 ∧ r.dposIrreversibleBlocknum = 3 ∧
      r.activeSchedule.version = 1 ∧ LowEntriesSkipped s 3 := by
  have hne : toyChain [1, 2, 3, 4] (droppedHeaders.take 6) ≠ [] := by decide
  have hchain := toyChain_headerChain hne
  have hrun : (toyChain [1, 2, 3, 4] (droppedHeaders.take 6)).head?.bind (fun s =>
      (s.next toyEnv (toyHeader 7 9 10 3 2 0 none) false).toOption.map fun r =>
        (s.dposIrreversibleBlocknum, r.dposIrreversibleBlocknum, r.activeSchedule.version)) =
        some (2, 3, 1) := by decide
  obtain ⟨s, l, hsl⟩ := List.exists_cons_of_ne_nil hne
  rw [hsl] at hchain hrun
  rw [List.head?_cons, Option.bind_some] at hrun
  cases hn : s.next toyEnv (toyHeader 7 9 10 3 2 0 none) false with
  | error e =>
    rw [hn] at hrun
    simp [Except.toOption] at hrun
  | ok r =>
    rw [hn] at hrun
    simp only [Except.toOption, Option.map_some, Option.some.injEq, Prod.mk.injEq] at hrun
    obtain ⟨h1, h2, h3⟩ := hrun
    refine ⟨s, l, r, hsl, hn, h1, h2, h3, (irreversible_kept_iff hchain hn).1.mp ?_⟩
    omega

end Forceio.Chain
