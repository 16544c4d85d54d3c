import MeChain.Lib.Fallible
import MeChain.Lib.Table

/-!
# Moving the rows of a table to new keys, one after the other

A pass visits the rows listed before it started.  It deletes each row under its key and writes a row
for it under a new key, which depends on the row alone.  Nothing keeps two new keys apart, or a new
key from the key of a row that is still to be visited: then rows are overwritten, or deleted later.

* `survivors`      the rows whose new row is still there at the end;
* `Run`            the table in the middle of a pass: which keys are in use, which rows are there;
* `Run.step`       one row moved;
* `Run.keys_perm`  after a pass the keys are the new keys of the survivors;
* `survivors_eq_iff`  everything survives exactly when there is no collision;
* `Run.unmoved`    if every old key is still in use, no row changed its key.
-/

set_option linter.unusedSectionVars false

namespace Rekey
open Fallible

variable {K V : Type} [DecidableEq K] {key : V → K} {new : V → K}

/-- no later row is moved to the new key of `v`, and none is deleted there -/
def Keeps (key new : V → K) (v : V) (rest : List V) : Prop :=
  ∀ w ∈ rest, new v ≠ new w ∧ new v ≠ key w

instance (v : V) (rest : List V) : Decidable (Keeps key new v rest) :=
  inferInstanceAs (Decidable (∀ w ∈ rest, _))

def survivors (key new : V → K) : List V → List V
  | [] => []
  | v :: rest =>
    if Keeps key new v rest then v :: survivors key new rest else survivors key new rest

/-- no new key is chosen twice, and none is the key of a later row -/
def NoCollision (key new : V → K) (l : List V) : Prop :=
  l.Pairwise fun a b => new a ≠ new b ∧ new a ≠ key b

instance (l : List V) : Decidable (NoCollision key new l) :=
  inferInstanceAs (Decidable (List.Pairwise _ l))

/-! ## survivors -/

theorem survivors_cons (v : V) (rest : List V) : survivors key new (v :: rest)
    = if Keeps key new v rest then v :: survivors key new rest else survivors key new rest := rfl

theorem mem_survivors {l : List V} {v : V} :
    v ∈ survivors key new l ↔ ∃ done rest, l = done ++ v :: rest ∧ Keeps key new v rest := by
  induction l with
  | nil => simp [survivors]
  | cons a l ih =>
    have hcons : v ∈ survivors key new (a :: l) ↔
        (v = a ∧ Keeps key new a l) ∨ v ∈ survivors key new l := by
      rw [survivors_cons]
      by_cases h : Keeps key new a l
      · simp [h]
      · simp [h]
    rw [hcons, ih]
    constructor
    · intro h
      rcases h with ⟨rfl, hk⟩ | ⟨done, rest, rfl, hk⟩
      · exact ⟨[], l, rfl, hk⟩
      · exact ⟨a :: done, rest, rfl, hk⟩
    · intro h
      obtain ⟨done, rest, hl, hk⟩ := h
      cases done with
      | nil =>
        cases hl
        exact Or.inl ⟨rfl, hk⟩
      | cons b done =>
        cases hl
        exact Or.inr ⟨done, rest, rfl, hk⟩

theorem survivors_sublist (l : List V) : (survivors key new l).Sublist l := by
  induction l with
  | nil => exact List.Sublist.refl []
  | cons a l ih =>
    rw [survivors_cons]
    split
    · exact ih.cons_cons a
    · exact ih.cons a

theorem nodup_new_survivors (l : List V) : ((survivors key new l).map new).Nodup := by
  induction l with
  | nil => exact List.nodup_nil
  | cons a l ih =>
    rw [survivors_cons]
    split
    · rename_i hk
      rw [List.map_cons, List.nodup_cons]
      refine ⟨fun h => ?_, ih⟩
      obtain ⟨b, hb, he⟩ := List.mem_map.mp h
      exact (hk b ((survivors_sublist l).subset hb)).1 he.symm
    · exact ih

theorem survivors_snoc (l : List V) (v : V) : survivors key new (l ++ [v])
    = (survivors key new l).filter (fun a => new a ≠ new v ∧ new a ≠ key v) ++ [v] := by
  induction l with
  | nil => simp [survivors, Keeps]
  | cons a l ih =>
    have hk : Keeps key new a (l ++ [v]) ↔
        Keeps key new a l ∧ (new a ≠ new v ∧ new a ≠ key v) := by
      unfold Keeps
      rw [List.forall_mem_append, List.forall_mem_singleton]
    rw [List.cons_append, survivors_cons, survivors_cons, ih]
    by_cases h1 : Keeps key new a l
    · by_cases h2 : new a ≠ new v ∧ new a ≠ key v
      · rw [if_pos (hk.mpr ⟨h1, h2⟩), if_pos h1, List.filter_cons_of_pos (by simpa using h2)]
        rfl
      · rw [if_neg (fun h => h2 (hk.mp h).2), if_pos h1,
          List.filter_cons_of_neg (by simpa using h2)]
    · rw [if_neg (fun h => h1 (hk.mp h).1), if_neg h1]

/-- **Everything survives exactly when there is no collision.** -/
theorem survivors_eq_iff {l : List V} : survivors key new l = l ↔ NoCollision key new l := by
  induction l with
  | nil => exact iff_of_true rfl List.Pairwise.nil
  | cons a l ih =>
    unfold NoCollision
    rw [survivors_cons, List.pairwise_cons]
    by_cases h : Keeps key new a l
    · rw [if_pos h, List.cons_inj_right, ih]
      exact ⟨fun hno => ⟨h, hno⟩, fun hno => hno.2⟩
    · rw [if_neg h]
      refine iff_of_false (fun he => ?_) (fun hno => h hno.1)
      have hlen : (survivors key new l).length ≤ l.length := (survivors_sublist l).length_le
      rw [he, List.length_cons] at hlen
      omega

theorem noCollision_of_length {l : List V} (h : (survivors key new l).length = l.length) :
    NoCollision key new l :=
  survivors_eq_iff.mp ((survivors_sublist l).eq_of_length h)

theorem noCollision_of_unmoved {l : List V} (hn : (l.map key).Nodup)
    (h : ∀ v ∈ l, new v = key v) : NoCollision key new l := by
  refine List.Pairwise.imp_of_mem ?_ (List.pairwise_map.mp hn)
  intro a b ha hb hne
  rw [h a ha, h b hb]
  exact ⟨hne, hne⟩

/-! ## a pass -/

/-- The table `t` after the rows of `done` were moved, from the table `s`; `img v w` says that `w`
is a row written for `v`. -/
structure Run (new : V → K) (img : V → V → Prop) (done : List V) (s t : Table key) : Prop where
  keys : ∀ k, k ∈ t.keys ↔ k ∈ (survivors key new done).map new ∨
    k ∈ s.keys ∧ ∀ v ∈ done, k ≠ key v ∧ k ≠ new v
  moved : ∀ v ∈ survivors key new done, ∃ w, img v w ∧ w ∈ t.rows
  kept : ∀ w ∈ s.rows, (∀ v ∈ done, key w ≠ key v ∧ key w ≠ new v) → w ∈ t.rows

section
variable {img : V → V → Prop} {done rest l : List V} {s t : Table key} {v w : V}

theorem Run.start (s : Table key) : Run new img [] s s where
  keys k := by simp [survivors]
  moved _ hv := absurd hv List.not_mem_nil
  kept _ hw _ := hw

/-- **One row moved.** -/
theorem Run.step (h : Run new img done s t) (himg : ∀ v w, img v w → key w = new v)
    (hw : img v w) : Run new img (done ++ [v]) s ((t.del (key v)).put w) where
  keys k := by
    rw [Table.mem_keys_put, Table.mem_keys_del, h.keys, himg v w hw, survivors_snoc]
    simp only [List.map_append, List.mem_append, List.mem_map, List.mem_filter, List.mem_singleton,
      decide_eq_true_eq]
    by_cases hk : k = new v
    · refine iff_of_true (Or.inl hk) (Or.inl (Or.inr ⟨v, rfl, hk.symm⟩))
    · constructor
      · intro hl
        rcases hl with hl | ⟨hkey, ⟨a, ha, rfl⟩ | ⟨hs, hdone⟩⟩
        · exact absurd hl hk
        · exact Or.inl (Or.inl ⟨a, ⟨ha, hk, hkey⟩, rfl⟩)
        · refine Or.inr ⟨hs, fun x hx => ?_⟩
          rcases hx with hx | rfl
          · exact hdone x hx
          · exact ⟨hkey, hk⟩
      · intro hr
        rcases hr with (⟨a, ⟨ha, _, hkey⟩, rfl⟩ | ⟨x, rfl, he⟩) | ⟨hs, hall⟩
        · exact Or.inr ⟨hkey, Or.inl ⟨a, ha, rfl⟩⟩
        · exact absurd he.symm hk
        · exact Or.inr ⟨(hall v (Or.inr rfl)).1, Or.inr ⟨hs, fun x hx => hall x (Or.inl hx)⟩⟩
  moved a ha := by
    rw [survivors_snoc, List.mem_append, List.mem_filter, List.mem_singleton] at ha
    rcases ha with ⟨ha, hne⟩ | rfl
    · obtain ⟨x, hx, hmem⟩ := h.moved a ha
      rw [decide_eq_true_eq, ← himg a x hx, ← himg v w hw] at hne
      exact ⟨x, hx, Table.mem_put.mpr (Or.inr ⟨Table.mem_del.mpr ⟨hmem, hne.2⟩, hne.1⟩)⟩
    · exact ⟨w, hw, Table.mem_put.mpr (Or.inl rfl)⟩
  kept x hx hall := by
    have hv := hall v (by simp)
    have ht := h.kept x hx (fun a ha => hall a (List.mem_append_left _ ha))
    rw [← himg v w hw] at hv
    exact Table.mem_put.mpr (Or.inr ⟨Table.mem_del.mpr ⟨ht, hv.1⟩, hv.2⟩)

/-- in the middle of a pass without collisions: the row visited now is still there -/
theorem Run.waiting (h : Run new img done s t) (hno : NoCollision key new s.rows)
    (hl : s.rows = done ++ v :: rest) : v ∈ t.rows := by
  have hbefore := (split_of_pairwise hno hl).1
  have hkeys := (split_of_pairwise (List.pairwise_map.mp s.nodup) hl).1
  refine h.kept v (by rw [hl]; simp) (fun a ha => ?_)
  exact ⟨(hkeys a ha).symm, (hbefore a ha).2.symm⟩

/-- and its new key is free, unless it is its own -/
theorem Run.free (h : Run new img done s t) (hno : NoCollision key new s.rows)
    (hl : s.rows = done ++ v :: rest) : new v = key v ∨ new v ∉ t.keys := by
  obtain ⟨hbefore, hafter⟩ := split_of_pairwise hno hl
  by_contra hc
  rw [not_or, not_not] at hc
  rcases (h.keys _).mp hc.2 with hd | ⟨hs, hdone⟩
  · obtain ⟨a, ha, he⟩ := List.mem_map.mp hd
    exact (hbefore a ((survivors_sublist done).subset ha)).1 he
  · obtain ⟨b, hb, he⟩ := List.mem_map.mp hs
    rw [hl, List.mem_append, List.mem_cons] at hb
    rcases hb with hb | rfl | hb
    · exact (hdone b hb).1 he.symm
    · exact hc.1 he.symm
    · exact (hafter b hb).2 he.symm

/-! ## a whole pass -/

/-- **After a pass the keys are the new keys of the survivors.** -/
theorem Run.mem_keys (h : Run new img s.rows s t) {k : K} :
    k ∈ t.keys ↔ k ∈ (survivors key new s.rows).map new := by
  rw [h.keys]
  refine or_iff_left (fun hk => ?_)
  obtain ⟨v, hv, rfl⟩ := List.mem_map.mp hk.1
  exact (hk.2 v hv).1 rfl

theorem Run.keys_perm (h : Run new img s.rows s t) :
    t.keys.Perm ((survivors key new s.rows).map new) :=
  (List.perm_ext_iff_of_nodup t.nodup (nodup_new_survivors _)).mpr (fun _ => h.mem_keys)

theorem Run.length (h : Run new img s.rows s t) :
    t.length = (survivors key new s.rows).length := by
  rw [← Table.length_keys, h.keys_perm.length_eq, List.length_map]

theorem Run.exists_survivor (h : Run new img s.rows s t) (himg : ∀ v w, img v w → key w = new v)
    (hw : w ∈ t.rows) : ∃ v ∈ survivors key new s.rows, img v w := by
  obtain ⟨v, hv, hk⟩ := List.mem_map.mp (h.mem_keys.mp (List.mem_map_of_mem hw))
  obtain ⟨x, hx, hmem⟩ := h.moved v hv
  rw [Table.eq_of_key hw hmem (hk.symm.trans (himg v x hx).symm)]
  exact ⟨v, hv, hx⟩

theorem Run.sum {M : Type} [AddCommMonoid M] (h : Run new img s.rows s t)
    (himg : ∀ v w, img v w → key w = new v) {f g : V → M} (hfg : ∀ v w, img v w → f w = g v) :
    t.sum f = ((survivors key new s.rows).map g).sum := by
  have hval : ∀ v ∈ survivors key new s.rows, t.valueAt f (new v) = g v := by
    intro v hv
    obtain ⟨w, hw, hmem⟩ := h.moved v hv
    rw [← himg v w hw, Table.valueAt_some (Table.mem_rows_iff.mp hmem), hfg v w hw]
  have hrows : t.rows.map f = t.keys.map (t.valueAt f) := by
    rw [Table.keys, List.map_map]
    exact List.map_congr_left (fun v hv => (Table.valueAt_some (Table.mem_rows_iff.mp hv)).symm)
  rw [Table.sum, hrows, (h.keys_perm.map _).sum_eq, List.map_map]
  exact congrArg List.sum (List.map_congr_left hval)

/-- an old key in use at the end is the new key of its row or of a later one -/
theorem Run.old_key (h : Run new img s.rows s t) (hl : s.rows = done ++ v :: rest)
    (hk : key v ∈ t.keys) : ∃ w ∈ v :: rest, new w = key v := by
  obtain ⟨w, hw, he⟩ := List.mem_map.mp (h.mem_keys.mp hk)
  obtain ⟨before, later, hsplit, hkeeps⟩ := mem_survivors.mp hw
  refine ⟨w, ?_, he⟩
  rw [hl, List.append_eq_append_iff] at hsplit
  rcases hsplit with ⟨c, _, hc⟩ | ⟨c, _, hc⟩
  · rw [hc]
    simp
  · cases c with
    | nil =>
      cases hc
      exact List.mem_cons_self ..
    | cons b c =>
      -- `w` comes before `v`, which would then have been deleted from its place
      cases hc
      exact absurd he (hkeeps v (by simp)).2

/-- If every old key is still in use, every row kept its key: the last row can only be under its own
key, and so on towards the first. -/
theorem Run.unmoved (h : Run new img s.rows s t) (hkeys : ∀ v ∈ s.rows, key v ∈ t.keys) :
    ∀ v ∈ s.rows, new v = key v := by
  have hsuffix : ∀ (rest done : List V), s.rows = done ++ rest → ∀ v ∈ rest, new v = key v := by
    intro rest
    induction rest with
    | nil => exact fun _ _ v hv => absurd hv List.not_mem_nil
    | cons v rest ih =>
      intro done hl
      have hrest := ih (done ++ [v]) (by rw [hl]; simp)
      intro w hw
      rcases List.mem_cons.mp hw with rfl | hw
      · obtain ⟨x, hx, hnew⟩ := h.old_key hl (hkeys w (by rw [hl]; simp))
        rcases List.mem_cons.mp hx with rfl | hx
        · exact hnew
        · have hne := (split_of_pairwise (List.pairwise_map.mp s.nodup) hl).2 x hx
          exact absurd ((hrest x hx).symm.trans hnew).symm hne
      · exact hrest w hw
  exact hsuffix s.rows [] rfl

end

end Rekey
