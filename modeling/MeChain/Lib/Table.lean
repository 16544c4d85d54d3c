import Mathlib.Algebra.BigOperators.Group.Finset.Basic
import Mathlib.Algebra.BigOperators.Group.List.Lemmas
import Mathlib.Algebra.Order.BigOperators.Group.List
import Mathlib.Data.Finset.Card
import Mathlib.Data.List.Dedup
import Mathlib.Tactic.Abel
import MeChain.Lib.Fallible

/-!
# Keyed tables

A table is a list of rows in which no two rows have the same key; the key is read off the row.
The order of the rows is the order in which the table is listed, and no operation promises
anything about it.

* `get_put`, `get_del`     lookups after a write and after a deletion;
* `mem_rows_iff`           a row is listed exactly when a lookup of its key finds it;
* `sum_put`, `sum_del`     a sum over the rows after a write and after a deletion;
* `get_rewrite`            lookups after every row was written back, changed; `Rewritten` states it;
* `lookupD_put`            the value under a key, or a default, after a write.
-/

set_option linter.unusedSectionVars false

structure Table {K V : Type} (key : V → K) where
  rows : List V
  nodup : (rows.map key).Nodup

/-- pairs keyed by their first component -/
abbrev Index (K V : Type) := Table (Prod.fst : K × V → K)

namespace Table

section
variable {K V : Type} {key : V → K}

def empty : Table key := ⟨[], List.nodup_nil⟩

instance : Inhabited (Table key) := ⟨empty⟩

def keys (t : Table key) : List K := t.rows.map key

def length (t : Table key) : Nat := t.rows.length

def sum {M : Type} [AddCommMonoid M] (f : V → M) (t : Table key) : M := (t.rows.map f).sum

theorem nodup_rows (t : Table key) : t.rows.Nodup := List.Nodup.of_map key t.nodup

theorem length_keys (t : Table key) : t.keys.length = t.length := List.length_map ..

theorem eq_of_key {t : Table key} {v w : V} (hv : v ∈ t.rows) (hw : w ∈ t.rows)
    (h : key v = key w) : v = w := List.inj_on_of_nodup_map t.nodup hv hw h

end

section
variable {K V : Type} [DecidableEq K] {key : V → K}

def get (t : Table key) (k : K) : Option V := t.rows.find? (fun v => key v = k)

def has (t : Table key) (k : K) : Bool := (t.get k).isSome

theorem nodup_filter (t : Table key) (p : V → Bool) : ((t.rows.filter p).map key).Nodup :=
  List.Nodup.sublist (List.filter_sublist.map key) t.nodup

def del (t : Table key) (k : K) : Table key :=
  ⟨t.rows.filter (fun v => key v ≠ k), t.nodup_filter _⟩

theorem key_notMem_del (t : Table key) (k : K) : k ∉ (t.del k).rows.map key := by
  intro h
  obtain ⟨v, hv, hk⟩ := List.mem_map.mp h
  have h2 := (List.mem_filter.mp hv).2
  simp [hk] at h2

/-- write a row under its key, in place of the row that was there -/
def put (t : Table key) (v : V) : Table key :=
  ⟨v :: (t.del (key v)).rows, List.nodup_cons.mpr ⟨t.key_notMem_del _, (t.del _).nodup⟩⟩

theorem rows_del (t : Table key) (k : K) :
    (t.del k).rows = t.rows.filter (fun v => key v ≠ k) := rfl

theorem rows_put (t : Table key) (v : V) : (t.put v).rows = v :: (t.del (key v)).rows := rfl

/-! ## lookups -/

theorem get_eq_some_iff {t : Table key} {k : K} {v : V} :
    t.get k = some v ↔ v ∈ t.rows ∧ key v = k := by
  constructor
  · intro h
    exact ⟨List.mem_of_find?_eq_some h, by simpa using List.find?_some h⟩
  · rintro ⟨hv, rfl⟩
    cases h : t.get (key v) with
    | none =>
      have := List.find?_eq_none.mp h v hv
      simp at this
    | some w =>
      have hw : w ∈ t.rows := List.mem_of_find?_eq_some h
      have hk : key w = key v := by simpa using List.find?_some h
      rw [eq_of_key hw hv hk]

theorem mem_rows_iff {t : Table key} {v : V} : v ∈ t.rows ↔ t.get (key v) = some v := by
  rw [get_eq_some_iff]
  simp

theorem get_key {t : Table key} {k : K} {v : V} (h : t.get k = some v) : key v = k :=
  (get_eq_some_iff.mp h).2

theorem mem_of_get {t : Table key} {k : K} {v : V} (h : t.get k = some v) : v ∈ t.rows :=
  (get_eq_some_iff.mp h).1

theorem get_eq_none_iff {t : Table key} {k : K} : t.get k = none ↔ k ∉ t.keys := by
  constructor
  · intro h hk
    obtain ⟨v, hv, rfl⟩ := List.mem_map.mp hk
    rw [mem_rows_iff.mp hv] at h
    cases h
  · intro h
    cases hg : t.get k with
    | none => rfl
    | some v => exact absurd (List.mem_map.mpr ⟨v, mem_of_get hg, get_key hg⟩) h

theorem mem_keys_iff {t : Table key} {k : K} : k ∈ t.keys ↔ ∃ v, t.get k = some v := by
  constructor
  · intro h
    obtain ⟨v, hv, rfl⟩ := List.mem_map.mp h
    exact ⟨v, mem_rows_iff.mp hv⟩
  · rintro ⟨v, hv⟩
    exact List.mem_map.mpr ⟨v, mem_of_get hv, get_key hv⟩

theorem has_iff {t : Table key} {k : K} : t.has k = true ↔ k ∈ t.keys := by
  rw [mem_keys_iff]
  exact Option.isSome_iff_exists

theorem mem_del {t : Table key} {k : K} {v : V} :
    v ∈ (t.del k).rows ↔ v ∈ t.rows ∧ key v ≠ k := by
  simp [rows_del]

theorem mem_put {t : Table key} {v w : V} :
    w ∈ (t.put v).rows ↔ w = v ∨ w ∈ t.rows ∧ key w ≠ key v := by
  rw [rows_put, List.mem_cons, mem_del]

theorem get_del (t : Table key) (k k' : K) :
    (t.del k).get k' = if k' = k then none else t.get k' := by
  apply Option.ext
  intro v
  rw [get_eq_some_iff, mem_del]
  by_cases h : k' = k
  · rw [if_pos h]
    constructor
    · rintro ⟨⟨_, hne⟩, hk⟩
      exact absurd (hk.trans h) hne
    · intro hv; cases hv
  · rw [if_neg h, get_eq_some_iff]
    constructor
    · rintro ⟨⟨hv, _⟩, hk⟩
      exact ⟨hv, hk⟩
    · rintro ⟨hv, hk⟩
      exact ⟨⟨hv, fun e => h (hk.symm.trans e)⟩, hk⟩

theorem get_put (t : Table key) (v : V) (k : K) :
    (t.put v).get k = if k = key v then some v else t.get k := by
  apply Option.ext
  intro w
  rw [get_eq_some_iff, mem_put]
  by_cases h : k = key v
  · rw [if_pos h]
    constructor
    · rintro ⟨rfl | ⟨_, hne⟩, hk⟩
      · rfl
      · exact absurd (hk.trans h) hne
    · intro hw
      cases hw
      exact ⟨Or.inl rfl, h.symm⟩
  · rw [if_neg h, get_eq_some_iff]
    constructor
    · rintro ⟨rfl | ⟨hw, _⟩, hk⟩
      · exact absurd hk.symm h
      · exact ⟨hw, hk⟩
    · rintro ⟨hw, hk⟩
      exact ⟨Or.inr ⟨hw, fun e => h (hk.symm.trans e)⟩, hk⟩

@[simp] theorem get_put_self (t : Table key) (v : V) : (t.put v).get (key v) = some v := by
  rw [get_put, if_pos rfl]

theorem get_put_ne (t : Table key) (v : V) {k : K} (h : k ≠ key v) : (t.put v).get k = t.get k := by
  rw [get_put, if_neg h]

@[simp] theorem get_del_self (t : Table key) (k : K) : (t.del k).get k = none := by
  rw [get_del, if_pos rfl]

theorem del_of_none {t : Table key} {k : K} (h : t.get k = none) : t.del k = t := by
  have hrows : t.rows.filter (fun v => key v ≠ k) = t.rows := by
    rw [List.filter_eq_self]
    intro v hv
    have hne : key v ≠ k := fun e => get_eq_none_iff.mp h (List.mem_map.mpr ⟨v, hv, e⟩)
    simpa using hne
  cases t
  simp only [del, hrows]

theorem mem_keys_put {t : Table key} {v : V} {k : K} :
    k ∈ (t.put v).keys ↔ k = key v ∨ k ∈ t.keys := by
  rw [mem_keys_iff, mem_keys_iff, get_put]
  by_cases h : k = key v
  · simp [h]
  · simp [h]

theorem mem_keys_del {t : Table key} {k k' : K} :
    k' ∈ (t.del k).keys ↔ k' ≠ k ∧ k' ∈ t.keys := by
  rw [mem_keys_iff, mem_keys_iff, get_del]
  by_cases h : k' = k
  · simp [h]
  · simp [h]

/-! ## sums over the rows -/

section
variable {M : Type} [AddCommMonoid M]

/-- the part of a sum that comes from the row under `k` -/
def valueAt (f : V → M) (t : Table key) (k : K) : M := ((t.get k).map f).getD 0

theorem valueAt_some {f : V → M} {t : Table key} {k : K} {v : V} (h : t.get k = some v) :
    t.valueAt f k = f v := by
  simp [valueAt, h]

theorem valueAt_none {f : V → M} {t : Table key} {k : K} (h : t.get k = none) :
    t.valueAt f k = 0 := by
  simp [valueAt, h]

theorem sum_del (t : Table key) (f : V → M) (k : K) :
    (t.del k).sum f + t.valueAt f k = t.sum f := by
  cases h : t.get k with
  | none =>
    rw [valueAt_none h, add_zero, del_of_none h]
  | some v =>
    have hp : t.rows.Perm (v :: (t.del k).rows) := by
      refine (List.perm_ext_iff_of_nodup t.nodup_rows ?_).mpr (fun w => ?_)
      · rw [← get_key h]
        exact (t.put v).nodup_rows
      · rw [List.mem_cons, mem_del]
        constructor
        · intro hw
          by_cases hk : key w = k
          · exact Or.inl (eq_of_key hw (mem_of_get h) (hk.trans (get_key h).symm))
          · exact Or.inr ⟨hw, hk⟩
        · rintro (rfl | ⟨hw, _⟩)
          · exact mem_of_get h
          · exact hw
    rw [valueAt_some h, sum, sum, (hp.map f).sum_eq, List.map_cons, List.sum_cons, add_comm]

theorem sum_put (t : Table key) (f : V → M) (v : V) :
    (t.put v).sum f + t.valueAt f (key v) = t.sum f + f v := by
  have h : (t.put v).sum f = f v + (t.del (key v)).sum f := by
    rw [sum, sum, rows_put, List.map_cons, List.sum_cons]
  rw [h, add_assoc, sum_del, add_comm]

theorem sum_congr {t : Table key} {f g : V → M} (h : ∀ v ∈ t.rows, f v = g v) :
    t.sum f = t.sum g := by
  rw [sum, sum, List.map_congr_left h]

theorem sum_add (t : Table key) (f g : V → M) : t.sum (fun v => f v + g v) = t.sum f + t.sum g := by
  rw [sum, sum, sum, List.sum_map_add]

theorem sum_zero (t : Table key) {f : V → M} (h : ∀ v ∈ t.rows, f v = 0) : t.sum f = 0 := by
  rw [sum, List.sum_eq_zero]
  intro x hx
  obtain ⟨v, hv, rfl⟩ := List.mem_map.mp hx
  exact h v hv

end

theorem sum_single {M : Type} [AddCommMonoid M] (t : Table key) (f : V → M) (k : K) :
    t.sum (fun v => if key v = k then f v else 0) = t.valueAt f k := by
  rw [← sum_del t _ k, sum_zero, zero_add]
  · cases h : t.get k with
    | none => rw [valueAt_none h, valueAt_none h]
    | some v => rw [valueAt_some h, valueAt_some h, if_pos (get_key h)]
  · intro v hv
    rw [if_neg (mem_del.mp hv).2]

/-- a sum over the rows as a sum over any set of keys that contains those of the table -/
theorem sum_eq_finset {M : Type} [AddCommMonoid M] (t : Table key) (f : V → M) {S : Finset K}
    (h : ∀ k ∈ t.keys, k ∈ S) : t.sum f = ∑ k ∈ S, t.valueAt f k := by
  have hl : t.rows.map f = t.keys.map (t.valueAt f) := by
    rw [keys, List.map_map]
    exact List.map_congr_left (fun v hv => (valueAt_some (mem_rows_iff.mp hv)).symm)
  have hs : t.keys.toFinset ⊆ S := fun k hk => h k (List.mem_toFinset.mp hk)
  calc t.sum f = (t.keys.map (t.valueAt f)).sum := by rw [sum, hl]
    _ = ∑ k ∈ t.keys.toFinset, t.valueAt f k := (List.sum_toFinset _ t.nodup).symm
    _ = ∑ k ∈ S, t.valueAt f k := by
      refine Finset.sum_subset hs (fun k _ hk => valueAt_none (get_eq_none_iff.mpr ?_))
      exact fun hk' => hk (List.mem_toFinset.mpr hk')

theorem valueAt_put {M : Type} [AddCommMonoid M] (t : Table key) (f : V → M) (v : V) (k : K) :
    (t.put v).valueAt f k = if k = key v then f v else t.valueAt f k := by
  unfold valueAt
  rw [get_put]
  split <;> simp

theorem valueAt_del {M : Type} [AddCommMonoid M] (t : Table key) (f : V → M) (k k' : K) :
    (t.del k).valueAt f k' = if k' = k then 0 else t.valueAt f k' := by
  unfold valueAt
  rw [get_del]
  split <;> simp

end

/-! ## every row written back -/

section
variable {K V : Type} [DecidableEq K] {key : V → K}

/-- every listed row written back, changed by `f` -/
def rewrite (t : Table key) (f : V → V) : Table key := t.rows.foldl (fun u v => u.put (f v)) t

theorem get_rewrite {t : Table key} {f : V → V} (hf : ∀ v, key (f v) = key v) (k : K) :
    (t.rewrite f).get k = (t.get k).map f := by
  have hrun := Fallible.foldl_run (f := fun (u : Table key) v => u.put (f v)) (l := t.rows) (s := t)
    (I := fun done u => ∀ k, u.get k = if k ∈ done.map key then (t.get k).map f else t.get k)
    (fun _ => rfl) (by
      intro done v rest u hl hI k
      rw [get_put, hf, hI, List.map_append, List.map_singleton]
      by_cases hv : k = key v
      · have hmem : v ∈ t.rows := by
          rw [hl]
          simp
        rw [if_pos hv, if_pos (by simp [hv]), hv, mem_rows_iff.mp hmem]
        rfl
      · rw [if_neg hv]
        by_cases hk : k ∈ done.map key
        · rw [if_pos hk, if_pos (List.mem_append_left _ hk)]
        · rw [if_neg hk, if_neg (fun h => (List.mem_append.mp h).elim hk
            (fun h => hv (List.mem_singleton.mp h)))])
  rw [rewrite, hrun]
  by_cases hk : k ∈ t.rows.map key
  · rw [if_pos hk]
  · rw [if_neg hk, get_eq_none_iff.mpr hk]
    rfl

/-- `u` has the records of `t`, changed by `f` -/
def Rewritten (f : V → V) (t u : Table key) : Prop := ∀ k, u.get k = (t.get k).map f

theorem rewritten_self_iff {t : Table key} {f : V → V} : Rewritten f t t ↔ ∀ v ∈ t.rows, f v = v := by
  constructor
  · intro h v hv
    have hk := h (key v)
    rw [mem_rows_iff.mp hv] at hk
    exact (Option.some.inj hk).symm
  · intro h k
    cases hget : t.get k with
    | none => rfl
    | some v => rw [Option.map_some, h v (mem_of_get hget)]

theorem mem_rewrite {t : Table key} {f : V → V} (hf : ∀ v, key (f v) = key v) {w : V} :
    w ∈ (t.rewrite f).rows ↔ ∃ v ∈ t.rows, w = f v := by
  rw [mem_rows_iff, get_rewrite hf, Option.map_eq_some_iff]
  constructor
  · rintro ⟨v, hv, rfl⟩
    exact ⟨v, mem_of_get hv, rfl⟩
  · rintro ⟨v, hv, rfl⟩
    rw [hf]
    exact ⟨v, mem_rows_iff.mp hv, rfl⟩

end

/-! ## values under keys -/

section
variable {K V : Type} [DecidableEq K]

/-- the value under a key, or a default -/
def lookupD (t : Index K V) (k : K) (dflt : V) : V := ((t.get k).map Prod.snd).getD dflt

theorem lookupD_of_get {t : Index K V} {k : K} {e : K × V} (h : t.get k = some e) (dflt : V) :
    t.lookupD k dflt = e.2 := by
  rw [lookupD, h, Option.map_some, Option.getD_some]

theorem lookupD_of_none {t : Index K V} {k : K} (h : t.get k = none) (dflt : V) :
    t.lookupD k dflt = dflt := by
  rw [lookupD, h, Option.map_none, Option.getD_none]

/-- what holds of every value of an index and of the default holds of a lookup -/
theorem lookupD_of_rows {t : Index K V} {P : V → Prop} {dflt : V} (h : ∀ e ∈ t.rows, P e.2)
    (hd : P dflt) (k : K) : P (t.lookupD k dflt) := by
  cases hget : t.get k with
  | none => rwa [lookupD_of_none hget]
  | some e =>
    rw [lookupD_of_get hget]
    exact h e (mem_of_get hget)

theorem lookupD_put (t : Index K V) (e : K × V) (k : K) (dflt : V) :
    (t.put e).lookupD k dflt = if k = e.1 then e.2 else t.lookupD k dflt := by
  unfold lookupD
  rw [get_put]
  split
  · rfl
  · rfl

theorem lookupD_put_self (t : Index K V) (k : K) (v dflt : V) :
    (t.put (k, v)).lookupD k dflt = v := by
  rw [lookupD_put, if_pos rfl]

theorem lookupD_put_ne (t : Index K V) {e : K × V} {k : K} (h : k ≠ e.1) (dflt : V) :
    (t.put e).lookupD k dflt = t.lookupD k dflt := by
  rw [lookupD_put, if_neg h]

theorem lookupD_del (t : Index K V) (k k' : K) (dflt : V) :
    (t.del k).lookupD k' dflt = if k' = k then dflt else t.lookupD k' dflt := by
  unfold lookupD
  rw [get_del]
  split
  · rfl
  · rfl

theorem get_of_lookupD {t : Index K V} {k : K} {dflt : V} (h : t.lookupD k dflt ≠ dflt) :
    t.get k = some (k, t.lookupD k dflt) := by
  cases hg : t.get k with
  | none => exact absurd (lookupD_of_none hg dflt) h
  | some e =>
    rw [lookupD_of_get hg]
    exact congrArg some (Prod.ext (get_key hg) rfl)

theorem valueAt_lookupD {M : Type} [AddCommMonoid M] {f : V → M} {dflt : V} (hf : f dflt = 0)
    (t : Index K V) (k : K) : t.valueAt (fun e => f e.2) k = f (t.lookupD k dflt) := by
  cases hg : t.get k with
  | none => rw [valueAt_none hg, lookupD_of_none hg, hf]
  | some e => rw [valueAt_some hg, lookupD_of_get hg]

end

end Table
