import Forceio.Chain.BlockHeaderState

/-!
# What `set_confirmed` does to the counters

The loop of `set_confirmed` walks the counters from the newest to the oldest. Read from the newest
end (`confirm_count` reversed), position `m` is the counter of block `block_num - m`, and a block
with `confirmed = n` visits the positions `0, …, n` until one of them reaches zero.

Result:
* `ConfirmedSpec`, `confirmed_spec`: `set_confirmed` in terms of positions from the newest end,
  with the two ways the loop can end.
-/

namespace Forceio.Chain

open List

namespace BlockHeaderState

/-- Where the loop stops, from the start `i`, the number `k` of blocks to confirm and the index
that reached zero. -/
def confirmStop (i k : Nat) : Option Nat → Nat
  | none => i - k
  | some z => z

/-- **The loop of `set_confirmed`**: the visited indices are those from the stop up to `i`; they are
decremented once, and only the stop may reach zero. -/
theorem confirmLoop_spec :
    ∀ (i k : Nat) (cc : List Nat), i ≤ cc.length → ∀ {cc' : List Nat} {cut : Option Nat},
      confirmLoop i k cc = (cc', cut) →
      (∀ j, cc'[j]? = if confirmStop i k cut ≤ j ∧ j < i then cc[j]?.map decU8 else cc[j]?) ∧
      (∀ j c, confirmStop i k cut ≤ j → j < i → cut ≠ some j → cc[j]? = some c → decU8 c ≠ 0) ∧
      (∀ z, cut = some z → i - k ≤ z ∧ z < i ∧ ∃ c, cc[z]? = some c ∧ decU8 c = 0)
  | 0, k, cc, _, cc', cut, h => by
    obtain ⟨rfl, rfl⟩ := Prod.mk.inj h
    exact ⟨fun j => by simp, fun j c _ hj => absurd hj (Nat.not_lt_zero j), by simp⟩
  | i + 1, 0, cc, _, cc', cut, h => by
    obtain ⟨rfl, rfl⟩ := Prod.mk.inj h
    refine ⟨fun j => ?_, fun j c h1 h2 => ?_, by simp⟩
    · rw [if_neg (by simp only [confirmStop]; omega)]
    · simp only [confirmStop] at h1
      omega
  | i + 1, k + 1, cc, hi, cc', cut, h => by
    have hlt : i < cc.length := hi
    have hci : cc[i]? = some cc[i] := getElem?_eq_getElem hlt
    have hmod : (cc.modify i decU8).getD i 0 = decU8 cc[i] := by
      simp [getD_eq_getElem?_getD, hci]
    rw [confirmLoop, hmod] at h
    by_cases hz : decU8 cc[i] = 0
    · -- the newest counter left reaches zero: the loop returns here
      rw [if_pos hz] at h
      obtain ⟨rfl, rfl⟩ := Prod.mk.inj h
      refine ⟨fun j => ?_, fun j c h1 h2 h3 => ?_, ?_⟩
      · rw [getElem?_modify]
        by_cases hj : i = j
        · subst hj
          simp [confirmStop]
        · rw [if_neg (by simp only [confirmStop]; omega)]
          simp [hj]
      · simp only [confirmStop, ne_eq, Option.some.injEq] at h1 h3
        omega
      · rintro z ⟨⟩
        exact ⟨by omega, by omega, _, hci, hz⟩
    · rw [if_neg hz] at h
      obtain ⟨h1, h2, h3⟩ := confirmLoop_spec i k (cc.modify i decU8)
        (by rw [length_modify]; omega) h
      have hother : ∀ j, j ≠ i → (cc.modify i decU8)[j]? = cc[j]? := by
        intro j hj
        simp [Ne.symm hj]
      have hstop : confirmStop (i + 1) (k + 1) cut = confirmStop i k cut := by
        cases cut with
        | none => simp only [confirmStop]; omega
        | some z => rfl
      have hle : confirmStop i k cut ≤ i := by
        cases cut with
        | none => simp only [confirmStop]; omega
        | some z => exact le_of_lt (h3 z rfl).2.1
      rw [hstop]
      refine ⟨fun j => ?_, fun j c hj1 hj2 hj3 hj4 => ?_, fun z hzc => ?_⟩
      · rw [h1 j]
        by_cases hj : j = i
        · subst hj
          rw [if_neg (by omega), if_pos (by omega)]
          simp [hci]
        · rw [hother j hj]
          by_cases hji : confirmStop i k cut ≤ j ∧ j < i
          · rw [if_pos hji, if_pos (by omega)]
          · rw [if_neg hji, if_neg (by omega)]
      · by_cases hj : j = i
        · subst hj
          rw [hci] at hj4
          obtain rfl := Option.some.inj hj4
          exact hz
        · exact h2 j c hj1 (by omega) hj3 (by rw [hother j hj]; exact hj4)
      · obtain ⟨hz1, hz2, c, hz3, hz4⟩ := h3 z hzc
        rw [hother z (by omega)] at hz3
        exact ⟨by omega, by omega, c, hz3, hz4⟩

theorem confirmLoop_length :
    ∀ (i k : Nat) (cc : List Nat), (confirmLoop i k cc).1.length = cc.length
  | 0, _, _ => rfl
  | _ + 1, 0, _ => rfl
  | i + 1, k + 1, cc => by
    unfold confirmLoop
    simp only
    split
    · exact length_modify ..
    · rw [confirmLoop_length, length_modify]

/-! ## Positions from the newest end -/

/-- What `set_confirmed(n)` makes of the counters `cc` and the proposed number. Either no visited
counter reaches zero, or the one at position `z` does: then block `block_num - z` is proposed and
only the newer counters stay. -/
inductive ConfirmedSpec (blockNum proposed : Nat) (cc : List Nat) (n : Nat) :
    List Nat × Nat → Prop where
  | through (cc' : List Nat) : cc'.length = cc.length →
      (∀ m, cc'.reverse[m]? = cc.reverse[m]?.map fun c => if m ≤ n then decU8 c else c) →
      (∀ m c, m ≤ n → cc.reverse[m]? = some c → decU8 c ≠ 0) →
      ConfirmedSpec blockNum proposed cc n (cc', proposed)
  | cut (cc' : List Nat) (z c : Nat) : z ≤ n → cc.reverse[z]? = some c → decU8 c = 0 →
      cc'.length = z → (∀ m, m < z → cc'.reverse[m]? = cc.reverse[m]?.map decU8) →
      (∀ m c, m < z → cc.reverse[m]? = some c → decU8 c ≠ 0) →
      ConfirmedSpec blockNum proposed cc n (cc', subU32 blockNum z)

/-- **`set_confirmed` on the counters.** -/
theorem confirmed_spec (blockNum proposed : Nat) (cc : List Nat) (n : UInt16) :
    ConfirmedSpec blockNum proposed cc n.toNat (confirmed blockNum proposed cc n) := by
  unfold confirmed
  rcases hloop : confirmLoop cc.length (n.toNat + 1) cc with ⟨cc', cut⟩
  have hlen : cc'.length = cc.length := by
    rw [← confirmLoop_length cc.length (n.toNat + 1) cc, hloop]
  obtain ⟨h1, h2, h3⟩ := confirmLoop_spec cc.length (n.toNat + 1) cc le_rfl hloop
  cases cut with
  | none =>
    have hstop : confirmStop cc.length (n.toNat + 1) none = cc.length - (n.toNat + 1) := rfl
    refine ConfirmedSpec.through cc' hlen (fun m => ?_) fun m c hm hc => ?_
    · by_cases hml : m < cc.length
      · rw [getElem?_reverse (by omega), getElem?_reverse hml, hlen, h1]
        by_cases hmn : m ≤ n.toNat
        · rw [if_pos (by rw [hstop]; omega)]
          simp [hmn]
        · rw [if_neg (by rw [hstop]; omega)]
          simp [hmn]
      · rw [getElem?_eq_none (by rw [length_reverse]; omega),
          getElem?_eq_none (by rw [length_reverse]; omega)]
        rfl
    · have hml : m < cc.length := by
        have := (List.getElem?_eq_some_iff.mp hc).1
        rwa [length_reverse] at this
      rw [getElem?_reverse hml] at hc
      exact h2 _ c (by rw [hstop]; omega) (by omega) (by simp) hc
  | some i =>
    obtain ⟨hi1, hi2, c, hc, hc0⟩ := h3 i rfl
    have hstop : confirmStop cc.length (n.toNat + 1) (some i) = i := rfl
    have hz : cc.reverse[cc.length - 1 - i]? = some c := by
      rw [getElem?_reverse (by omega), ← hc]
      congr 1
      omega
    refine ConfirmedSpec.cut (cc'.drop (i + 1)) (cc.length - 1 - i) c (by omega) hz hc0
      (by rw [length_drop]; omega) (fun m hm => ?_) fun m c' hm hc' => ?_
    · rw [getElem?_reverse (by rw [length_drop]; omega), length_drop,
        getElem?_drop, getElem?_reverse (by omega), h1, if_pos (by rw [hstop]; omega)]
      congr 2
      omega
    · rw [getElem?_reverse (by omega)] at hc'
      exact h2 _ c' (by rw [hstop]; omega) (by omega)
        (by simp only [ne_eq, Option.some.injEq]; omega) hc'

/-! ## The indices the loop decrements -/

/-- The indices `confirmLoop` decrements, in the order it does. -/
def confirmTouched : Nat → Nat → List Nat → List Nat
  | 0, _, _ => []
  | _ + 1, 0, _ => []
  | i + 1, blocksToConfirm + 1, confirmCount =>
    let confirmCount := confirmCount.modify i decU8
    i :: if confirmCount.getD i 0 = 0 then [] else confirmTouched i blocksToConfirm confirmCount

theorem confirmLoop_fst : ∀ (i k : Nat) (cc : List Nat),
    (confirmLoop i k cc).1 = (confirmTouched i k cc).foldl (fun cc j => cc.modify j decU8) cc
  | 0, _, _ => rfl
  | _ + 1, 0, _ => rfl
  | i + 1, k + 1, cc => by
    unfold confirmLoop confirmTouched
    simp only
    split
    · rfl
    · exact confirmLoop_fst i k _

theorem mem_confirmTouched :
    ∀ {i k : Nat} {cc : List Nat} {j : Nat}, j ∈ confirmTouched i k cc → j < i ∧ i ≤ j + k
  | 0, _, _, _, h => absurd h not_mem_nil
  | _ + 1, 0, _, _, h => absurd h not_mem_nil
  | i + 1, k + 1, cc, j, h => by
    rcases mem_cons.mp h with rfl | h
    · omega
    · split at h
      · exact absurd h not_mem_nil
      · have := mem_confirmTouched h
        omega

theorem nodup_confirmTouched : ∀ (i k : Nat) (cc : List Nat), (confirmTouched i k cc).Nodup
  | 0, _, _ => nodup_nil
  | _ + 1, 0, _ => nodup_nil
  | i + 1, k + 1, cc => by
    refine nodup_cons.mpr ⟨fun h => ?_, ?_⟩
    · split at h
      · exact absurd h not_mem_nil
      · exact absurd (mem_confirmTouched h).1 (lt_irrefl i)
    · split
      · exact nodup_nil
      · exact nodup_confirmTouched i k _

end BlockHeaderState

end Forceio.Chain
