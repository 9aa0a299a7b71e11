import Mathlib.Data.List.Sort
import Mathlib.Data.List.TakeWhile

/-!
# Ordered non-unique indices

The sequence of an ordered index that allows equal keys, as `boost::multi_index` keeps it. A new
element goes after its equals. An element that is modified stays where it is if its new key still
fits between its two neighbours, and is otherwise taken out and inserted again, after its equals.

Results:
* `sorted_insert`, `perm_insert`, `head?_insert`: inserting.
* `modify_eq_mapWhere`: a modification that keeps the key moves nothing.
* `head?_modify_of_le`, `head?_of_lt`: which element is first.
-/

namespace Forceio.Lib.OrderedIndex

open List

variable {α κ : Type} [LinearOrder κ] (key : α → κ)
variable {x : α} {l pre post : List α} {p : α → Bool}
variable (f : α → α)

/-- The elements are in key order. -/
def Sorted (l : List α) : Prop := l.Pairwise fun a b => key a ≤ key b

/-- Insert at the upper bound: before the first element with a larger key. -/
def insert (x : α) (l : List α) : List α := l.orderedInsert (fun a b => key a < key b) x

/-- Whether `x` fits between its neighbours, the last of `pre` and the first of `post`. -/
def inPlace (pre : List α) (x : α) (post : List α) : Bool :=
  (pre.getLast?.all fun y => decide (key y ≤ key x)) &&
    (post.head?.all fun y => decide (key x ≤ key y))

/-- Apply `f` to the first element with property `p` and put it at its place. -/
def modify (p : α → Bool) (f : α → α) (l : List α) : List α :=
  match l.dropWhile (fun a => !p a) with
  | [] => l
  | x :: post =>
    let pre := l.takeWhile (fun a => !p a)
    if inPlace key pre (f x) post then pre ++ f x :: post else insert key (f x) (pre ++ post)

variable {key}

theorem perm_insert (x : α) (l : List α) : (insert key x l).Perm (x :: l) :=
  perm_orderedInsert _ x l

theorem mem_insert {y : α} : y ∈ insert key x l ↔ y = x ∨ y ∈ l := by
  rw [(perm_insert x l).mem_iff, mem_cons]

theorem sorted_insert (x : α) : ∀ {l : List α}, Sorted key l → Sorted key (insert key x l)
  | [], _ => pairwise_singleton _ _
  | y :: l, h => by
    obtain ⟨hy, hl⟩ := pairwise_cons.mp h
    unfold insert
    rw [orderedInsert_cons]
    split
    · rename_i hlt
      refine pairwise_cons.mpr ⟨fun z hz => ?_, h⟩
      rcases mem_cons.mp hz with rfl | hz
      · exact le_of_lt hlt
      · exact le_trans (le_of_lt hlt) (hy z hz)
    · rename_i hnlt
      refine pairwise_cons.mpr ⟨fun z hz => ?_, sorted_insert x hl⟩
      rcases mem_insert.mp hz with rfl | hz
      · exact not_lt.mp hnlt
      · exact hy z hz

theorem insert_front {y : α} (h : key x < key y) : insert key x (y :: l) = x :: y :: l := by
  unfold insert
  rw [orderedInsert_cons, if_pos h]

/-- The first element after an insertion: the new one only if its key is smaller than all. -/
theorem head?_insert (x : α) (l : List α) : (insert key x l).head? = match l.head? with
      | none => some x
      | some y => if key x < key y then some x else some y := by
  cases l with
  | nil => rfl
  | cons y l =>
    unfold insert
    rw [orderedInsert_cons, head?_cons]
    simp only
    split <;> rfl

theorem modify_split (hpre : ∀ y ∈ pre, p y = false) (hx : p x = true) :
    modify key p f (pre ++ x :: post) = if inPlace key pre (f x) post then pre ++ f x :: post
      else insert key (f x) (pre ++ post) := by
  have hpre' : ∀ y ∈ pre, (!p y) = true := fun y hy => by rw [hpre y hy]; rfl
  have hdrop : (pre ++ x :: post).dropWhile (fun a => !p a) = x :: post := by
    rw [dropWhile_append_of_pos hpre', dropWhile_cons_of_neg (by simp [hx])]
  have htake : (pre ++ x :: post).takeWhile (fun a => !p a) = pre := by
    rw [takeWhile_append_of_pos hpre', takeWhile_cons_of_neg (by simp [hx]),
      append_nil]
  unfold modify
  rw [hdrop, htake]

theorem modify_of_not (h : ∀ y ∈ l, p y = false) : modify key p f l = l := by
  unfold modify
  rw [dropWhile_eq_nil_iff.mpr fun y hy => by simp [h y hy]]

theorem split_first (p : α → Bool) : ∀ l : List α, (∀ y ∈ l, p y = false) ∨
      ∃ pre x post, l = pre ++ x :: post ∧ (∀ y ∈ pre, p y = false) ∧ p x = true
  | [] => Or.inl fun _ h => absurd h not_mem_nil
  | a :: l => by
    cases ha : p a with
    | true => exact Or.inr ⟨[], a, l, rfl, fun _ h => absurd h not_mem_nil, ha⟩
    | false =>
      rcases split_first p l with h | ⟨pre, x, post, rfl, hpre, hx⟩
      · refine Or.inl fun y hy => ?_
        rcases mem_cons.mp hy with rfl | hy
        · exact ha
        · exact h y hy
      · refine Or.inr ⟨a :: pre, x, post, rfl, fun y hy => ?_, hx⟩
        rcases mem_cons.mp hy with rfl | hy
        · exact ha
        · exact hpre y hy

/-- When at most one element has property `p`: the modified element and what surrounds it. -/
theorem split_unique (h : l.countP p ≤ 1) : (∀ y ∈ l, p y = false) ∨
      ∃ pre x post, l = pre ++ x :: post ∧ p x = true ∧ (∀ y ∈ pre, p y = false) ∧
        ∀ y ∈ post, p y = false := by
  rcases split_first p l with hl | ⟨pre, x, post, rfl, hpre, hx⟩
  · exact Or.inl hl
  · refine Or.inr ⟨pre, x, post, rfl, hx, hpre, fun y hy => ?_⟩
    rw [countP_append, countP_cons_of_pos hx] at h
    have hz : post.countP p = 0 := by omega
    exact Bool.eq_false_iff.mpr (countP_eq_zero.mp hz y hy)

/-- Applying `f` where `p` holds. -/
def mapWhere (p : α → Bool) (f : α → α) (l : List α) : List α :=
  l.map fun a => if p a then f a else a

theorem mapWhere_of_not (h : ∀ y ∈ l, p y = false) : mapWhere p f l = l := by
  refine (map_congr_left fun y hy => ?_).trans (map_id l)
  rw [h y hy]
  rfl

theorem mapWhere_split (hx : p x = true) (hpre : ∀ y ∈ pre, p y = false)
    (hpost : ∀ y ∈ post, p y = false) : mapWhere p f (pre ++ x :: post) = pre ++ f x :: post := by
  have h1 := mapWhere_of_not f hpre
  have h2 := mapWhere_of_not f hpost
  unfold mapWhere at h1 h2 ⊢
  rw [map_append, map_cons, h1, h2, if_pos hx]

theorem perm_modify (h : l.countP p ≤ 1) : (modify key p f l).Perm (mapWhere p f l) := by
  rcases split_unique h with hl | ⟨pre, x, post, rfl, hx, hpre, hpost⟩
  · rw [modify_of_not f hl, mapWhere_of_not f hl]
  · rw [modify_split f hpre hx, mapWhere_split f hx hpre hpost]
    split
    · exact List.Perm.refl _
    · exact (perm_insert (f x) _).trans perm_middle.symm

/-- In a sorted sequence the two neighbours speak for all. -/
theorem inPlace_iff (hpre : Sorted key pre) (hpost : Sorted key post) :
    inPlace key pre x post = true ↔ (∀ y ∈ pre, key y ≤ key x) ∧ ∀ y ∈ post, key x ≤ key y := by
  unfold inPlace
  rw [Bool.and_eq_true]
  refine and_congr ?_ ?_
  · rcases eq_nil_or_concat pre with rfl | ⟨ini, z, rfl⟩
    · simp
    · rw [concat_eq_append] at hpre ⊢
      have hz := (pairwise_append.mp hpre).2.2
      rw [getLast?_concat, Option.all_some, decide_eq_true_iff]
      constructor
      · intro hle y hy
        rcases mem_append.mp hy with hy | hy
        · exact le_trans (hz y hy z (mem_singleton.mpr rfl)) hle
        · rw [mem_singleton.mp hy]
          exact hle
      · exact fun hle => hle z (mem_append_right _ (mem_singleton.mpr rfl))
  · cases post with
    | nil => simp
    | cons z post =>
      have hz := (pairwise_cons.mp hpost).1
      rw [head?_cons, Option.all_some, decide_eq_true_iff]
      constructor
      · intro hle y hy
        rcases mem_cons.mp hy with rfl | hy
        · exact hle
        · exact le_trans hle (hz y hy)
      · exact fun hle => hle z mem_cons_self

theorem sorted_split (h : Sorted key (pre ++ x :: post)) :
    Sorted key pre ∧ Sorted key post ∧ Sorted key (pre ++ post) ∧
      (∀ y ∈ pre, key y ≤ key x) ∧ ∀ y ∈ post, key x ≤ key y := by
  obtain ⟨hpre, hrest, hcross⟩ := pairwise_append.mp h
  obtain ⟨hx, hpost⟩ := pairwise_cons.mp hrest
  exact ⟨hpre, hpost, h.sublist (List.Sublist.append_left (sublist_cons_self x post) pre),
    fun y hy => hcross y hy x mem_cons_self, hx⟩

/-- **A modified sequence is sorted again.** -/
theorem sorted_modify (hl : Sorted key l) (h : l.countP p ≤ 1) : Sorted key (modify key p f l) := by
  rcases split_unique h with hn | ⟨pre, x, post, rfl, hx, hpre, -⟩
  · rw [modify_of_not f hn]
    exact hl
  · obtain ⟨h1, h2, h3, h4, h5⟩ := sorted_split hl
    rw [modify_split f hpre hx]
    split
    · rename_i hin
      obtain ⟨hle, hge⟩ := (inPlace_iff h1 h2).mp hin
      refine pairwise_append.mpr ⟨h1, pairwise_cons.mpr ⟨hge, h2⟩, fun y hy z hz => ?_⟩
      rcases mem_cons.mp hz with rfl | hz
      · exact hle y hy
      · exact le_trans (h4 y hy) (h5 z hz)
    · exact sorted_insert (f x) h3

/-- **A modification that keeps the key moves nothing.** -/
theorem modify_eq_mapWhere {f : α → α} (hl : Sorted key l) (h : l.countP p ≤ 1)
    (hkey : ∀ x ∈ l, p x = true → key (f x) = key x) : modify key p f l = mapWhere p f l := by
  rcases split_unique h with hn | ⟨pre, x, post, rfl, hx, hpre, hpost⟩
  · rw [modify_of_not f hn, mapWhere_of_not f hn]
  · obtain ⟨h1, h2, -, h4, h5⟩ := sorted_split hl
    rw [modify_split f hpre hx, mapWhere_split f hx hpre hpost, if_pos]
    rw [inPlace_iff h1 h2, hkey x (by simp) hx]
    exact ⟨h4, h5⟩

/-- **An element that does not get ahead of the first leaves it the first.** -/
theorem head?_modify_of_le {f : α → α} {a : α} (ha : l.head? = some a) (hpa : p a = false)
    (hle : ∀ x ∈ l, p x = true → key a ≤ key (f x)) : (modify key p f l).head? = some a := by
  rcases split_first p l with hn | ⟨pre, x, post, rfl, hpre, hx⟩
  · rw [modify_of_not f hn]
    exact ha
  · cases pre with
    | nil =>
      obtain rfl := Option.some.inj ha
      rw [hpa] at hx
      simp at hx
    | cons b pre =>
      obtain rfl : b = a := Option.some.inj ha
      rw [modify_split f hpre hx]
      split
      · rfl
      · rw [head?_insert, cons_append, head?_cons]
        simp only
        rw [if_neg (not_lt.mpr (hle x (by simp) hx))]

/-- The first of a sorted sequence is any element that is strictly ahead of all others. -/
theorem head?_of_lt (hl : Sorted key l) {a : α} (ha : a ∈ l) (h : ∀ b ∈ l, b = a ∨ key a < key b) :
    l.head? = some a := by
  cases l with
  | nil => exact absurd ha not_mem_nil
  | cons b l =>
    rcases h b mem_cons_self with rfl | hlt
    · rfl
    · rcases mem_cons.mp ha with rfl | ha
      · rfl
      · exact absurd ((pairwise_cons.mp hl).1 a ha) (not_le.mpr hlt)

theorem le_of_head? (hl : Sorted key l) {a : α} (ha : l.head? = some a) :
    ∀ b ∈ l, key a ≤ key b := by
  cases l with
  | nil => exact fun b hb => absurd hb not_mem_nil
  | cons c l =>
    obtain rfl := Option.some.inj ha
    intro b hb
    rcases mem_cons.mp hb with rfl | hb
    · exact le_rfl
    · exact (pairwise_cons.mp hl).1 b hb

theorem head?_filter {a : α} (h : l.head? = some a) (ha : p a = true) :
    (l.filter p).head? = some a := by
  cases l with
  | nil => simp at h
  | cons b l =>
    obtain rfl := Option.some.inj h
    rw [filter_cons_of_pos ha]
    rfl

end Forceio.Lib.OrderedIndex
