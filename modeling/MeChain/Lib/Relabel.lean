import Mathlib.Data.List.Sort
import Mathlib.Data.List.Perm.Subperm
import Mathlib.Logic.Basic

/-!
# Making labels distinct

The elements of a list carry numbers, and some carry the same.  All but the first of those with one
number get the lowest numbers that nobody uses, one after the other; then the list is sorted.

* `lowestUnused`      the first number from `n` on that is not used;
* `relabelAll`        new labels for a list, in its order;
* `firsts`, `repeats` the elements that keep their labels, and those that get new ones;
* `makeDistinct`      the whole pass;
* `makeDistinct_perm`, `makeDistinct_sorted`  what it keeps, and how its labels lie;
* `makeDistinct_self` a list with increasing labels stays as it is;
* `makeDistinct_lt`   of two elements with label zero the earlier one gets the smaller label.
-/

set_option linter.unusedSectionVars false

/-- elements with a number that can be replaced -/
class Labelled (α : Type) where
  label : α → Nat
  relabel : Nat → α → α
  label_relabel : ∀ n a, label (relabel n a) = n
  relabel_label : ∀ a, relabel (label a) a = a
  relabel_relabel : ∀ m n a, relabel m (relabel n a) = relabel m a

namespace Relabel
open Labelled

/-! ## unused numbers -/

/-- at most `fuel` numbers are skipped -/
def nextUnused (used : List Nat) : Nat → Nat → Nat
  | 0, n => n
  | fuel + 1, n => if n ∈ used then nextUnused used fuel (n + 1) else n

def lowestUnused (used : List Nat) (n : Nat) : Nat := nextUnused used used.length n

section
variable {used : List Nat} {fuel n : Nat}

theorem le_nextUnused : n ≤ nextUnused used fuel n := by
  induction fuel generalizing n with
  | zero => exact le_refl n
  | succ fuel ih =>
    rw [nextUnused]
    split
    · exact (Nat.le_succ n).trans ih
    · exact le_refl n

theorem used_of_nextUnused_mem (h : nextUnused used fuel n ∈ used) :
    ∀ i ≤ fuel, n + i ∈ used := by
  induction fuel generalizing n with
  | zero =>
    intro i hi
    rw [Nat.le_zero.mp hi]
    exact h
  | succ fuel ih =>
    intro i hi
    rw [nextUnused] at h
    by_cases hn : n ∈ used
    · rw [if_pos hn] at h
      cases i with
      | zero => exact hn
      | succ i =>
        have hrest := ih h i (Nat.le_of_succ_le_succ hi)
        rwa [Nat.add_right_comm] at hrest
    · rw [if_neg hn] at h
      exact absurd h hn

theorem le_lowestUnused : n ≤ lowestUnused used n := le_nextUnused

theorem lowestUnused_notMem : lowestUnused used n ∉ used := by
  intro h
  have hall := used_of_nextUnused_mem h
  -- one number more than there are used ones
  have hnodup : ((List.range (used.length + 1)).map (n + ·)).Nodup :=
    List.nodup_range.map (fun a b hab => Nat.add_left_cancel hab)
  have hsub : (List.range (used.length + 1)).map (n + ·) ⊆ used := by
    intro m hm
    obtain ⟨i, hi, rfl⟩ := List.mem_map.mp hm
    exact hall i (Nat.lt_succ_iff.mp (List.mem_range.mp hi))
  have hlen := (List.subperm_of_subset hnodup hsub).length_le
  rw [List.length_map, List.length_range] at hlen
  exact absurd hlen (Nat.not_succ_le_self _)

end

/-! ## new labels -/

variable {α : Type} [Labelled α]

/-- the lowest unused numbers from `n` on, in the order of the list -/
def relabelAll (used : List Nat) (n : Nat) : List α → List α
  | [] => []
  | a :: l =>
    relabel (lowestUnused used n) a ::
      relabelAll (lowestUnused used n :: used) (lowestUnused used n) l

section
variable {used : List Nat} {n : Nat} {a b x : α} {l : List α}

theorem label_relabelAll (h : x ∈ relabelAll used n l) : n ≤ label x ∧ label x ∉ used := by
  induction l generalizing used n with
  | nil => cases h
  | cons a l ih =>
    rcases List.mem_cons.mp h with rfl | h
    · rw [label_relabel]
      exact ⟨le_lowestUnused, lowestUnused_notMem⟩
    · obtain ⟨hle, hnot⟩ := ih h
      exact ⟨le_lowestUnused.trans hle, fun hu => hnot (List.mem_cons_of_mem _ hu)⟩

theorem relabelAll_increasing :
    (relabelAll used n l).Pairwise (fun a b => label a < label b) := by
  induction l generalizing used n with
  | nil => exact List.Pairwise.nil
  | cons a l ih =>
    refine List.Pairwise.cons (fun b hb => ?_) ih
    obtain ⟨hle, hnot⟩ := label_relabelAll hb
    rw [label_relabel]
    exact lt_of_le_of_ne hle (fun he => hnot (he ▸ List.mem_cons_self ..))

theorem relabelAll_unlabelled : (relabelAll used n l).map (relabel 0) = l.map (relabel 0) := by
  induction l generalizing used n with
  | nil => rfl
  | cons a l ih =>
    rw [relabelAll, List.map_cons, List.map_cons, ih, relabel_relabel]

theorem relabelAll_mem (used : List Nat) (n : Nat) (h : a ∈ l) :
    ∃ m, relabel m a ∈ relabelAll used n l := by
  induction l generalizing used n with
  | nil => cases h
  | cons b l ih =>
    rcases List.mem_cons.mp h with rfl | h
    · exact ⟨_, List.mem_cons_self ..⟩
    · obtain ⟨m, hm⟩ := ih _ _ h
      exact ⟨m, List.mem_cons_of_mem _ hm⟩

theorem relabelAll_lt (used : List Nat) (n : Nat) (h : [a, b].Sublist l) : ∃ i j, i < j ∧
    relabel i a ∈ relabelAll used n l ∧ relabel j b ∈ relabelAll used n l := by
  induction l generalizing used n with
  | nil => cases h
  | cons c l ih =>
    cases h with
    | cons _ h =>
      obtain ⟨i, j, hij, hi, hj⟩ := ih _ _ h
      exact ⟨i, j, hij, List.mem_cons_of_mem _ hi, List.mem_cons_of_mem _ hj⟩
    | cons_cons _ h =>
      obtain ⟨j, hj⟩ := relabelAll_mem (lowestUnused used n :: used)
        (lowestUnused used n) (List.singleton_sublist.mp h)
      obtain ⟨hle, hnot⟩ := label_relabelAll hj
      rw [label_relabel] at hle hnot
      exact ⟨_, j, lt_of_le_of_ne hle (fun he => hnot (he ▸ List.mem_cons_self ..)),
        List.mem_cons_self .., List.mem_cons_of_mem _ hj⟩

end

/-! ## repeated labels -/

/-- the elements whose label none before them has -/
def firsts (seen : List Nat) : List α → List α
  | [] => []
  | a :: l => if label a ∈ seen then firsts seen l else a :: firsts (label a :: seen) l

/-- the others -/
def repeats (seen : List Nat) : List α → List α
  | [] => []
  | a :: l => if label a ∈ seen then a :: repeats seen l else repeats (label a :: seen) l

section
variable {seen : List Nat} {a b : α} {l : List α}

theorem firsts_repeats_perm : (firsts seen l ++ repeats seen l).Perm l := by
  induction l generalizing seen with
  | nil => exact List.Perm.refl []
  | cons a l ih =>
    rw [firsts, repeats]
    split
    · exact List.perm_middle.trans (ih.cons a)
    · exact ih.cons a

theorem firsts_subset : ∀ x ∈ firsts seen l, x ∈ l := fun _ hx =>
  firsts_repeats_perm.mem_iff.mp (List.mem_append_left _ hx)

theorem firsts_unseen : ∀ x ∈ firsts seen l, label x ∉ seen := by
  induction l generalizing seen with
  | nil => intro x hx; cases hx
  | cons a l ih =>
    intro x hx
    rw [firsts] at hx
    split at hx
    · exact ih x hx
    · rename_i hnew
      rcases List.mem_cons.mp hx with rfl | hx
      · exact hnew
      · exact fun hs => ih x hx (List.mem_cons_of_mem _ hs)

theorem firsts_distinct : (firsts seen l).Pairwise (fun a b => label a ≠ label b) := by
  induction l generalizing seen with
  | nil => exact List.Pairwise.nil
  | cons a l ih =>
    rw [firsts]
    split
    · exact ih
    · refine List.Pairwise.cons (fun b hb he => ?_) ih
      exact firsts_unseen b hb (he ▸ List.mem_cons_self ..)

theorem mem_repeats (ha : a ∈ l) (hs : label a ∈ seen) : a ∈ repeats seen l := by
  induction l generalizing seen with
  | nil => cases ha
  | cons c l ih =>
    rw [repeats]
    split
    · rcases List.mem_cons.mp ha with rfl | ha
      · exact List.mem_cons_self ..
      · exact List.mem_cons_of_mem _ (ih ha hs)
    · rename_i hnew
      rcases List.mem_cons.mp ha with rfl | ha
      · exact absurd hs hnew
      · exact ih ha (List.mem_cons_of_mem _ hs)

/-- the later of two elements with one label is a repeat -/
theorem pair_cases (seen : List Nat) (h : [a, b].Sublist l) (hab : label a = label b) :
    (a ∈ firsts seen l ∧ b ∈ repeats seen l) ∨ [a, b].Sublist (repeats seen l) := by
  induction l generalizing seen with
  | nil => cases h
  | cons c l ih =>
    rw [firsts, repeats]
    cases h with
    | cons _ h =>
      split
      · rcases ih _ h with ⟨hf, hr⟩ | hr
        · exact Or.inl ⟨hf, List.mem_cons_of_mem _ hr⟩
        · exact Or.inr (hr.cons c)
      · rcases ih _ h with ⟨hf, hr⟩ | hr
        · exact Or.inl ⟨List.mem_cons_of_mem _ hf, hr⟩
        · exact Or.inr hr
    | cons_cons _ h =>
      have hb := List.singleton_sublist.mp h
      split
      · rename_i hseen
        exact Or.inr ((List.singleton_sublist.mpr (mem_repeats hb (hab ▸ hseen))).cons_cons a)
      · exact Or.inl ⟨List.mem_cons_self .., mem_repeats hb (hab ▸ List.mem_cons_self ..)⟩

theorem firsts_self (seen : List Nat) (h : l.Pairwise (fun a b => label a < label b))
    (hs : ∀ a ∈ l, label a ∉ seen) : firsts seen l = l ∧ repeats seen l = [] := by
  induction l generalizing seen with
  | nil => exact ⟨rfl, rfl⟩
  | cons a l ih =>
    obtain ⟨hlt, hrest⟩ := List.pairwise_cons.mp h
    have hnew := hs a (List.mem_cons_self ..)
    obtain ⟨hf, hr⟩ := ih (label a :: seen) hrest (fun b hb hmem => by
      rcases List.mem_cons.mp hmem with he | hmem
      · exact absurd he (hlt b hb).ne'
      · exact hs b (List.mem_cons_of_mem _ hb) hmem)
    rw [firsts, repeats, if_neg hnew, if_neg hnew, hf, hr]
    exact ⟨rfl, rfl⟩

end

/-! ## the pass -/

/-- the order of the labels -/
def LabelLE (a b : α) : Prop := label a ≤ label b

instance : DecidableRel (LabelLE : α → α → Prop) := fun _ _ => inferInstanceAs (Decidable (_ ≤ _))

instance : Std.Total (LabelLE : α → α → Prop) := ⟨fun a b => le_total (label a) (label b)⟩

instance : IsTrans α LabelLE := ⟨fun _ _ _ hab hbc => Nat.le_trans hab hbc⟩

/-- The first element with a label keeps it, the others get the lowest unused ones, by label and
then in the order of the list; the result is sorted by label. -/
def makeDistinct (l : List α) : List α :=
  (firsts [] l ++ relabelAll (l.map label) 0 ((repeats [] l).insertionSort LabelLE)).insertionSort
    LabelLE

section
variable {a b : α} {l : List α}

theorem makeDistinct_perm : ((makeDistinct l).map (relabel 0)).Perm (l.map (relabel 0)) := by
  unfold makeDistinct
  refine ((List.perm_insertionSort _ _).map _).trans ?_
  rw [List.map_append, relabelAll_unlabelled, ← List.map_append]
  refine List.Perm.map _ ?_
  exact ((List.perm_insertionSort _ _).append_left _).trans firsts_repeats_perm

theorem mem_makeDistinct_iff {c : α} :
    (∃ x ∈ makeDistinct l, relabel 0 x = c) ↔ ∃ x ∈ l, relabel 0 x = c := by
  rw [← List.mem_map, ← List.mem_map]
  exact makeDistinct_perm.mem_iff

/-- what does not depend on labels is kept -/
theorem makeDistinct_filter {P : α → Bool} (hP : ∀ n x, P (relabel n x) = P x) :
    (((makeDistinct l).filter P).map (relabel 0)).Perm ((l.filter P).map (relabel 0)) := by
  have hcomp : ∀ k : List α, (k.filter P).map (relabel 0) = (k.map (relabel 0)).filter P := by
    intro k
    rw [List.filter_map]
    congr 1
    exact List.filter_congr (fun x _ => (hP 0 x).symm)
  rw [hcomp, hcomp]
  exact makeDistinct_perm.filter P

theorem makeDistinct_single {P : α → Bool} (hP : ∀ n x, P (relabel n x) = P x)
    (h : l.filter P = [a]) : ∃ b, (makeDistinct l).filter P = [b] ∧ relabel 0 b = relabel 0 a := by
  have hperm := makeDistinct_filter (l := l) hP
  rw [h, List.map_singleton] at hperm
  obtain ⟨b, hb, hba⟩ := List.map_eq_singleton_iff.mp hperm.eq_singleton
  exact ⟨b, hb, hba⟩

theorem makeDistinct_distinct :
    (makeDistinct l).Pairwise (fun a b => label a ≠ label b) := by
  unfold makeDistinct
  refine ((List.perm_insertionSort _ _).pairwise_iff (fun h => Ne.symm h)).mpr ?_
  refine List.pairwise_append.mpr ⟨firsts_distinct, relabelAll_increasing.imp ne_of_lt, ?_⟩
  intro a ha b hb he
  exact (label_relabelAll hb).2 (he ▸ List.mem_map_of_mem (firsts_subset a ha))

/-- **The labels increase.** -/
theorem makeDistinct_sorted : (makeDistinct l).Pairwise (fun a b => label a < label b) := by
  have hle : (makeDistinct l).Pairwise LabelLE := List.pairwise_insertionSort _ _
  exact hle.imp₂ (fun _ _ => lt_of_le_of_ne) makeDistinct_distinct

theorem makeDistinct_self (h : l.Pairwise (fun a b => label a < label b)) : makeDistinct l = l := by
  obtain ⟨hf, hr⟩ := firsts_self [] h (fun _ _ => List.not_mem_nil)
  unfold makeDistinct
  rw [hf, hr]
  show (l ++ []).insertionSort LabelLE = l
  rw [List.append_nil]
  exact (h.imp (fun hlt => hlt.le : ∀ {a b : α}, label a < label b → LabelLE a b)).insertionSort_eq

theorem mem_makeDistinct_of_first (h : a ∈ firsts [] l) : a ∈ makeDistinct l :=
  (List.perm_insertionSort _ _).mem_iff.mpr (List.mem_append_left _ h)

theorem mem_makeDistinct_of_new
    (h : a ∈ relabelAll (l.map label) 0 ((repeats [] l).insertionSort LabelLE)) :
    a ∈ makeDistinct l :=
  (List.perm_insertionSort _ _).mem_iff.mpr (List.mem_append_right _ h)

/-- **Of two elements with label zero** the earlier one ends up before the later one. -/
theorem makeDistinct_lt (h : [a, b].Sublist l) (ha : label a = 0) (hb : label b = 0) :
    ∃ i j, i < j ∧ relabel i a ∈ makeDistinct l ∧ relabel j b ∈ makeDistinct l := by
  rcases pair_cases [] h (ha.trans hb.symm) with ⟨hf, hr⟩ | hr
  · -- the earlier one keeps zero, which is used then
    obtain ⟨j, hj⟩ := relabelAll_mem (l.map label) 0
      ((List.mem_insertionSort LabelLE).mpr hr)
    have hused : (0 : Nat) ∈ l.map label := ha ▸ List.mem_map_of_mem (firsts_subset a hf)
    have hj0 := (label_relabelAll hj).2
    rw [label_relabel] at hj0
    refine ⟨0, j, Nat.pos_of_ne_zero (fun he => hj0 (he ▸ hused)), ?_, mem_makeDistinct_of_new hj⟩
    rw [← ha, relabel_label]
    exact mem_makeDistinct_of_first hf
  · have hsorted := List.pair_sublist_insertionSort (r := LabelLE)
      (show label a ≤ label b by rw [ha, hb]) hr
    obtain ⟨i, j, hij, hi, hj⟩ := relabelAll_lt (l.map label) 0 hsorted
    exact ⟨i, j, hij, mem_makeDistinct_of_new hi, mem_makeDistinct_of_new hj⟩

end

end Relabel
