import MeChain.Lib.Json

/-!
# JSON objects

A text may name a property twice, an object cannot; and an object lists array indices first.

* `Props.get`, `Props.set`    a property of an object;
* `normal`, `Canonical`       the value that a text stands for;
* `parse_text`                a value that can be built survives its text;
* `Obj`                       an object, with the order of its properties.
-/

namespace Json

/-! ## properties -/

abbrev Props := List (String × Json)

namespace Props

def get : Props → String → Option Json
  | [], _ => none
  | (k, v) :: l, name => if k = name then some v else get l name

/-- the array index that a name spells -/
def arrayIndex (name : String) : Option ℕ :=
  match parseNat name.toList with
  | some (n, []) => if n < 2 ^ 32 - 1 then some n else none
  | _ => none

/-- array indices come first, in ascending order; other names in the order they were added -/
def comesBefore (a b : String) : Bool :=
  match arrayIndex a, arrayIndex b with
  | some m, some n => m < n
  | some _, none => true
  | none, _ => false

def set : Props → String → Json → Props
  | [], name, v => [(name, v)]
  | (k, w) :: l, name, v =>
    if k = name then (name, v) :: l
    else if comesBefore name k then (name, v) :: (k, w) :: l
    else (k, w) :: set l name v

/-- the properties of a new object to which these are given one after the other -/
def build (l : Props) : Props := l.foldl (fun acc p => acc.set p.1 p.2) []

theorem get_set_self (l : Props) (name : String) (v : Json) : (l.set name v).get name = some v := by
  induction l with
  | nil => simp [set, get]
  | cons p l ih =>
    obtain ⟨k, w⟩ := p
    rw [set]
    split_ifs with hk hb
    · simp [get]
    · simp [get]
    · rw [get, if_neg hk, ih]

theorem get_set_of_ne (l : Props) {name k : String} (h : name ≠ k) (v : Json) :
    (l.set name v).get k = l.get k := by
  induction l with
  | nil => simp [set, get, h]
  | cons p l ih =>
    obtain ⟨k', w⟩ := p
    rw [set]
    split_ifs with hk hb
    · subst hk
      simp [get, h]
    · rw [get, if_neg h]
    · rw [get, get, ih]

theorem get_eq_none {l : Props} {k : String} (h : ∀ p ∈ l, p.1 ≠ k) : l.get k = none := by
  induction l with
  | nil => rfl
  | cons p l ih =>
    rw [get, if_neg (h p (by simp)), ih fun q hq => h q (List.mem_cons_of_mem _ hq)]

/-- no name twice, and in the order of an object -/
def Ordered (l : Props) : Prop := l.Pairwise fun p q => p.1 ≠ q.1 ∧ comesBefore q.1 p.1 = false

theorem set_last {l : Props} {name : String}
    (h : ∀ p ∈ l, p.1 ≠ name ∧ comesBefore name p.1 = false) (v : Json) :
    l.set name v = l ++ [(name, v)] := by
  induction l with
  | nil => rfl
  | cons p l ih =>
    obtain ⟨hne, hb⟩ := h p (by simp)
    rw [set, if_neg hne, hb, if_neg Bool.false_ne_true, ih fun q hq => h q (List.mem_cons_of_mem _ hq)]
    rfl

theorem build_of_ordered {l : Props} (h : Ordered l) : build l = l := by
  have hgo : ∀ (l done : Props), Ordered (done ++ l) →
      l.foldl (fun acc p => acc.set p.1 p.2) done = done ++ l := by
    intro l
    induction l with
    | nil => simp
    | cons p l ih =>
      intro done h
      have hp : ∀ q ∈ done, q.1 ≠ p.1 ∧ comesBefore p.1 q.1 = false := fun q hq =>
        (List.pairwise_append.mp h).2.2 q hq p (by simp)
      rw [List.foldl_cons, set_last hp, ih _ (by simpa using h)]
      simp
  exact hgo l [] h

theorem comesBefore_iff {a b : String} : comesBefore a b = true ↔
    ∃ m, arrayIndex a = some m ∧ ∀ n, arrayIndex b = some n → m < n := by
  unfold comesBefore
  cases arrayIndex a <;> cases arrayIndex b <;> simp

theorem comesBefore_irrefl (a : String) : comesBefore a a = false := by
  rw [Bool.eq_false_iff, ne_eq, comesBefore_iff]
  rintro ⟨m, hm, h⟩
  exact lt_irrefl m (h m hm)

theorem comesBefore_trans {a b c : String} (hab : comesBefore a b = true)
    (hbc : comesBefore b c = true) : comesBefore a c = true := by
  rw [comesBefore_iff] at hab hbc ⊢
  obtain ⟨m, hm, hlt⟩ := hab
  obtain ⟨n, hn, hlt'⟩ := hbc
  exact ⟨m, hm, fun k hk => (hlt n hn).trans (hlt' k hk)⟩

theorem mem_set {l : Props} {name : String} {v : Json} {p : String × Json}
    (h : p ∈ l.set name v) : p = (name, v) ∨ p ∈ l := by
  induction l with
  | nil => exact .inl (by simpa [set] using h)
  | cons q l ih =>
    rw [set] at h
    split_ifs at h with hk hb
    · exact (List.mem_cons.mp h).imp_right (List.mem_cons_of_mem _)
    · exact List.mem_cons.mp h
    · rcases List.mem_cons.mp h with rfl | h
      · exact .inr (by simp)
      · exact (ih h).imp_right (List.mem_cons_of_mem _)

theorem ordered_set {l : Props} (h : Ordered l) (name : String) (v : Json) :
    Ordered (l.set name v) := by
  induction l with
  | nil => exact List.pairwise_singleton _ _
  | cons q l ih =>
    obtain ⟨hq, hl⟩ := List.pairwise_cons.mp h
    rw [set]
    split_ifs with hk hb
    · exact List.pairwise_cons.mpr ⟨fun p hp => hk ▸ hq p hp, hl⟩
    · refine List.pairwise_cons.mpr ⟨fun p hp => ?_, h⟩
      rcases List.mem_cons.mp hp with rfl | hp
      · exact ⟨fun e => hk e.symm, by
          rw [Bool.eq_false_iff]
          intro hqn
          have := comesBefore_trans hb hqn
          rw [comesBefore_irrefl] at this
          exact Bool.false_ne_true this⟩
      · obtain ⟨hne, hnb⟩ := hq p hp
        refine ⟨?_, ?_⟩
        · rintro rfl
          exact Bool.false_ne_true (hnb.symm.trans hb)
        · rw [Bool.eq_false_iff]
          intro hpn
          exact Bool.false_ne_true (hnb.symm.trans (comesBefore_trans hpn hb))
    · refine List.pairwise_cons.mpr ⟨fun p hp => ?_, ih hl⟩
      rcases mem_set hp with rfl | hp
      · exact ⟨hk, Bool.eq_false_iff.mpr hb⟩
      · exact hq p hp

theorem ordered_build (l : Props) : Ordered (build l) :=
  List.foldlRecOn l _ List.Pairwise.nil fun _ h p _ => ordered_set h p.1 p.2

theorem mem_build {l : Props} {p : String × Json} (h : p ∈ build l) : p ∈ l := by
  have hall : ∀ q ∈ build l, q ∈ l := by
    refine List.foldlRecOn (motive := fun acc => ∀ q ∈ acc, q ∈ l) l _ ?_ ?_
    · intro q hq
      exact absurd hq List.not_mem_nil
    · intro acc hacc q hq r hr
      rcases mem_set hr with rfl | hr
      · exact hq
      · exact hacc r hr
  exact hall p h

end Props

/-! ## values -/

mutual

/-- objects rebuilt property by property: of two properties of one name the later one counts -/
def normal : Json → Json
  | .null => .null
  | .bool b => .bool b
  | .num n => .num n
  | .str s => .str s
  | .arr l => .arr (normalElems l)
  | .obj l => .obj (Props.build (normalProps l))

def normalElems : List Json → List Json
  | [] => []
  | x :: l => normal x :: normalElems l

def normalProps : Props → Props
  | [] => []
  | (k, v) :: l => (k, normal v) :: normalProps l

end

/-- an object as it can be built -/
def Canonical (j : Json) : Prop := normal j = j

def parse (s : String) : Option Json := (read s).map normal

theorem parse_text {j : Json} (h : j.Canonical) : parse j.text = some j := by
  rw [parse, read_text, Option.map_some, show j.normal = j from h]

theorem normalProps_eq {l : Props} (h : ∀ p ∈ l, Canonical p.2) : normalProps l = l := by
  induction l with
  | nil => rfl
  | cons p l ih =>
    rw [normalProps, show normal p.2 = p.2 from h p (by simp),
      ih fun q hq => h q (List.mem_cons_of_mem _ hq)]

theorem canonical_obj {l : Props} (ho : l.Ordered) (h : ∀ p ∈ l, Canonical p.2) :
    Canonical (.obj l) := by
  rw [Canonical, normal, normalProps_eq h, Props.build_of_ordered ho]

theorem normalElems_eq {l : List Json} (h : ∀ j ∈ l, Canonical j) : normalElems l = l := by
  induction l with
  | nil => rfl
  | cons x l ih =>
    rw [normalElems, show normal x = x from h x (by simp), ih fun j hj => h j (List.mem_cons_of_mem _ hj)]

theorem canonical_arr {l : List Json} (h : ∀ j ∈ l, Canonical j) : Canonical (.arr l) := by
  rw [Canonical, normal, normalElems_eq h]

mutual

theorem normal_canonical : ∀ j : Json, Canonical (normal j)
  | .null => rfl
  | .bool _ => rfl
  | .num _ => rfl
  | .str _ => rfl
  | .arr l => by
    rw [normal]
    exact canonical_arr (normalElems_canonical l)
  | .obj l => by
    rw [normal]
    exact canonical_obj (Props.ordered_build _) fun p hp => normalProps_canonical l p (Props.mem_build hp)

theorem normalElems_canonical : ∀ (l : List Json), ∀ j ∈ normalElems l, Canonical j
  | [], _, h => nomatch h
  | x :: l, j, h => by
    rcases List.mem_cons.mp h with rfl | h
    · exact normal_canonical x
    · exact normalElems_canonical l j h

theorem normalProps_canonical : ∀ (l : Props), ∀ p ∈ normalProps l, Canonical p.2
  | [], _, h => nomatch h
  | (k, v) :: l, p, h => by
    rcases List.mem_cons.mp h with rfl | h
    · exact normal_canonical v
    · exact normalProps_canonical l p h

end

/-! ## objects -/

@[ext] structure Obj where
  props : Props
  canonical : Canonical (.obj props)

namespace Obj

def empty : Obj := ⟨[], rfl⟩

/-- the object that has these properties -/
def of (l : Props) : Obj := ⟨Props.build (normalProps l), normal_canonical (.obj l)⟩

def get (o : Obj) (name : String) : Option Json := o.props.get name

theorem build_eq (o : Obj) : Props.build (normalProps o.props) = o.props := Json.obj.inj o.canonical

theorem of_props (o : Obj) : of o.props = o := Obj.ext (build_eq o)

theorem ordered (o : Obj) : o.props.Ordered := by
  rw [← build_eq o]
  exact Props.ordered_build _

end Obj

end Json
