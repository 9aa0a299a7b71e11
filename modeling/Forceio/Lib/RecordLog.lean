import Mathlib.Data.List.Basic
import Mathlib.Tactic.Ring

/-!
# Logs of records that end with their position

Numbers are written in little endian. A log is a sequence of packed records, each followed by the
position it starts at in eight bytes, and the index of a log is the sequence of these positions.

Result:
* `drop_position`: at the position of a record stands the record.
-/

namespace Forceio.Lib

open List

namespace LittleEndian

/-- A number in `k` bytes. -/
def encode : Nat → Nat → List UInt8
  | 0, _ => []
  | k + 1, n => UInt8.ofNat n :: encode k (n / 256)

/-- The number some bytes stand for. -/
def value : List UInt8 → Nat
  | [] => 0
  | b :: bs => b.toNat + 256 * value bs

@[simp] theorem length_encode : ∀ k n, (encode k n).length = k
  | 0, _ => rfl
  | k + 1, n => by simp [encode, length_encode k]

theorem value_encode : ∀ {k n : Nat}, n < 256 ^ k → value (encode k n) = n
  | 0, n, h => by
    simp only [encode, value]
    omega
  | k + 1, n, h => by
    have hdiv : n / 256 < 256 ^ k := Nat.div_lt_of_lt_mul (by rwa [pow_succ'] at h)
    have hbyte : (UInt8.ofNat n).toNat = n % 256 := rfl
    rw [encode, value, value_encode hdiv, hbyte]
    exact Nat.mod_add_div n 256

end LittleEndian

namespace RecordLog

open LittleEndian (encode length_encode)

/-- The index of a log: the positions of its records, in eight bytes each. -/
def index (ps : List Nat) : List UInt8 := ps.flatMap (encode 8)

theorem length_index : ∀ ps : List Nat, (index ps).length = 8 * ps.length
  | [] => rfl
  | p :: ps => by
    have htail : (index (p :: ps)).length = 8 + (index ps).length := by
      simp [index, flatMap_cons]
    rw [htail, length_index ps, length_cons]
    omega

theorem index_append (ps qs : List Nat) : index (ps ++ qs) = index ps ++ index qs :=
  flatMap_append

@[simp] theorem index_singleton (p : Nat) : index [p] = encode 8 p := flatMap_singleton _ _

theorem slice_index {p : Nat} : ∀ {ps : List Nat} {i : Nat}, ps[i]? = some p →
    ((index ps).drop (8 * i)).take 8 = encode 8 p
  | [], i, h => absurd h (by simp)
  | q :: ps, 0, h => by
    obtain rfl : q = p := by simpa using h
    show (encode 8 q ++ index ps).take 8 = _
    exact take_left' (length_encode 8 q)
  | q :: ps, i + 1, h => by
    have hi : ps[i]? = some p := by simpa using h
    have hdrop : (index (q :: ps)).drop (8 * (i + 1)) = (index ps).drop (8 * i) := by
      show (encode 8 q ++ index ps).drop (8 * i + 8) = _
      rw [Nat.add_comm, ← drop_drop, drop_left' (length_encode 8 q)]
    rw [hdrop]
    exact slice_index hi

variable {α : Type} (pack : α → List UInt8)

/-- The records of a log that starts at a position. -/
def body : Nat → List α → List UInt8
  | _, [] => []
  | pos, r :: rs => pack r ++ (encode 8 pos ++ body (pos + (pack r).length + 8) rs)

/-- The positions of the records. -/
def positions : Nat → List α → List Nat
  | _, [] => []
  | pos, r :: rs => pos :: positions (pos + (pack r).length + 8) rs

variable {pack}

@[simp] theorem length_positions : ∀ {pos : Nat} {rs : List α},
    (positions pack pos rs).length = rs.length
  | _, [] => rfl
  | pos, r :: rs => by simp [positions, length_positions]

theorem add_length_body_cons {pos : Nat} {q : α} {rs : List α} :
    pos + (pack q).length + 8 + (body pack (pos + (pack q).length + 8) rs).length =
      pos + (body pack pos (q :: rs)).length := by
  simp only [body, length_append, length_encode]
  omega

theorem body_concat {r : α} : ∀ {pos : Nat} {rs : List α}, body pack pos (rs ++ [r]) =
    body pack pos rs ++ (pack r ++ encode 8 (pos + (body pack pos rs).length))
  | pos, [] => by simp [body]
  | pos, q :: rs => by
    show pack q ++ (encode 8 pos ++ body pack _ (rs ++ [r])) = _
    rw [body_concat, add_length_body_cons]
    simp [body]

theorem positions_concat {r : α} : ∀ {pos : Nat} {rs : List α}, positions pack pos (rs ++ [r]) =
    positions pack pos rs ++ [pos + (body pack pos rs).length]
  | pos, [] => by simp [positions, body]
  | pos, q :: rs => by
    show pos :: positions pack _ (rs ++ [r]) = _
    rw [positions_concat, add_length_body_cons]
    rfl

/-- **At the position of a record stands the record**, and after it its position. -/
theorem drop_position {p : Nat} {r : α} : ∀ {pos i : Nat} {rs : List α},
    (positions pack pos rs)[i]? = some p → rs[i]? = some r →
      pos ≤ p ∧ ∃ rest, (body pack pos rs).drop (p - pos) = pack r ++ rest
  | pos, i, [], hp, _ => absurd hp (by simp [positions])
  | pos, 0, q :: rs, hp, hr => by
    obtain rfl : pos = p := by simpa [positions] using hp
    obtain rfl : q = r := by simpa using hr
    refine ⟨le_rfl, encode 8 pos ++ body pack (pos + (pack q).length + 8) rs, ?_⟩
    rw [Nat.sub_self]
    rfl
  | pos, i + 1, q :: rs, hp, hr => by
    have hp' : (positions pack (pos + (pack q).length + 8) rs)[i]? = some p := by
      simpa [positions] using hp
    obtain ⟨hle, rest, hrest⟩ := drop_position hp' (by simpa using hr)
    refine ⟨by omega, rest, ?_⟩
    have hsplit : p - pos = (pack q ++ encode 8 pos).length + (p - (pos + (pack q).length + 8)) := by
      simp only [length_append, length_encode]
      omega
    rw [body, ← append_assoc, hsplit, ← drop_drop, drop_left, hrest]

theorem length_le_length_body : ∀ {pos : Nat} {rs : List α}, rs.length ≤ (body pack pos rs).length
  | _, [] => le_rfl
  | pos, q :: rs => by
    have hrest : rs.length ≤ (body pack (pos + (pack q).length + 8) rs).length :=
      length_le_length_body
    simp only [body, length_append, length_encode, length_cons]
    omega

theorem lt_of_mem_positions {p : Nat} : ∀ {pos : Nat} {rs : List α},
    p ∈ positions pack pos rs → pos ≤ p ∧ p < pos + (body pack pos rs).length
  | pos, [], h => absurd h not_mem_nil
  | pos, q :: rs, h => by
    have hlen : (body pack pos (q :: rs)).length =
        (pack q).length + 8 + (body pack (pos + (pack q).length + 8) rs).length := by
      simp only [body, length_append, length_encode]
      omega
    rcases mem_cons.mp h with rfl | h
    · omega
    · have hrest := lt_of_mem_positions h
      omega

end RecordLog

end Forceio.Lib
