import Mathlib.Data.List.Basic
import Mathlib.Logic.Basic

/-!
# Fallible computations and loops over lists

A step that can fail is a function into `Except ε`; a loop is `List.foldlM`.

* `bind_eq_ok`      a sequence succeeds exactly when both parts do;
* `foldlM_ok`       the run rule: what every step preserves holds after a successful loop;
* `foldlM_total`    the same with progress: a loop whose every step succeeds succeeds;
* `foldl_run`       the run rule of a loop that cannot fail;
* `foldlM_ok_rest`, `foldlM_total_rest`, `foldl_run_rest`  the rules with the elements still to come;
* `split_of_pairwise`  what relates the visited elements, the next one and the later ones;
* `mapM_ok`         a successful `mapM` pointwise.

The invariant of a loop speaks about the part `done` of the list already visited; a step sees the
whole split `l = done ++ a :: rest`, so it may use what is known about the list as a whole.
-/

namespace Fallible

variable {ε α β σ : Type}

theorem bind_eq_ok {x : Except ε α} {f : α → Except ε β} {b : β} :
    (x >>= f) = .ok b ↔ ∃ a, x = .ok a ∧ f a = .ok b := by
  cases x with
  | error e =>
    constructor
    · intro h; cases h
    · rintro ⟨_, h, _⟩; cases h
  | ok a =>
    constructor
    · intro h; exact ⟨a, rfl, h⟩
    · rintro ⟨_, h, hf⟩; cases h; exact hf

@[simp] theorem ok_bind (a : α) (f : α → Except ε β) : (Except.ok a >>= f) = f a := rfl

theorem exists_ok_of_isOk {x : Except ε α} (h : x.isOk = true) : ∃ a, x = .ok a := by
  cases x with
  | error e => cases h
  | ok a => exact ⟨a, rfl⟩

/-- a computation that was run and whose value was checked -/
theorem exists_ok_of_check {x : Except ε α} {p : α → Prop} [DecidablePred p]
    (h : (x.toOption.any fun a => p a) = true) : ∃ a, x = .ok a ∧ p a := by
  cases x with
  | error e => cases h
  | ok a => exact ⟨a, rfl, of_decide_eq_true h⟩

/-- a guard in front of a computation -/
theorem guard_eq_ok {c : Prop} [Decidable c] {e : ε} {x : Except ε β} {b : β} :
    (if c then .error e else x) = .ok b ↔ ¬ c ∧ x = .ok b := by
  by_cases h : c
  · simp [h]
  · simp [h]

/-! ## loops -/

theorem rest_eq {l done rest rest' : List α} {a : α} (h : l = done ++ a :: rest)
    (h' : l = (done ++ [a]) ++ rest') : rest' = rest := by
  rw [h, List.append_assoc] at h'
  simpa using h'.symm

section
variable {f : σ → α → Except ε σ}

theorem foldlM_nil_ok {s s' : σ} : ([] : List α).foldlM f s = .ok s' ↔ s = s' := by
  constructor
  · intro h; cases h; rfl
  · rintro rfl; rfl

theorem foldlM_cons_ok {a : α} {l : List α} {s s' : σ} :
    (a :: l).foldlM f s = .ok s' ↔ ∃ t, f s a = .ok t ∧ l.foldlM f t = .ok s' := by
  rw [List.foldlM_cons, bind_eq_ok]

/-- the run rule with the visited part made explicit, from the middle of the list -/
theorem foldlM_ok_from {I : List α → σ → Prop} {l : List α}
    (step : ∀ done a rest s s', l = done ++ a :: rest → I done s → f s a = .ok s' →
      I (done ++ [a]) s') :
    ∀ (rest done : List α) (s s' : σ), l = done ++ rest → I done s → rest.foldlM f s = .ok s' →
      I l s' := by
  intro rest
  induction rest with
  | nil =>
    intro done s s' hl hI h
    rw [foldlM_nil_ok] at h
    rw [hl, List.append_nil, ← h]
    exact hI
  | cons a rest ih =>
    intro done s s' hl hI h
    obtain ⟨t, ht, hrest⟩ := foldlM_cons_ok.mp h
    exact ih (done ++ [a]) t s' (by rw [hl]; simp) (step done a rest s t hl hI ht) hrest

/-- **Run rule.**  What holds at the start and is kept by every step holds after the loop. -/
theorem foldlM_ok {I : List α → σ → Prop} {l : List α} {s s' : σ}
    (h : l.foldlM f s = .ok s') (start : I [] s)
    (step : ∀ done a rest s s', l = done ++ a :: rest → I done s → f s a = .ok s' →
      I (done ++ [a]) s') : I l s' :=
  foldlM_ok_from step l [] s s' rfl start h

/-- the run rule with the elements still to come in the invariant -/
theorem foldlM_ok_rest {I : List α → List α → σ → Prop} {l : List α} {s s' : σ}
    (h : l.foldlM f s = .ok s') (start : I [] l s)
    (step : ∀ done a rest s s', l = done ++ a :: rest → I done (a :: rest) s → f s a = .ok s' →
      I (done ++ [a]) rest s') : I l [] s' := by
  refine foldlM_ok (I := fun done t => ∀ rest, l = done ++ rest → I done rest t) h ?_ ?_ []
    (List.append_nil l).symm
  · intro rest hrest
    rw [List.nil_append] at hrest
    exact hrest ▸ start
  · intro done a rest t t' hl hI hstep rest' hrest'
    rw [rest_eq hl hrest']
    exact step done a rest t t' hl (hI (a :: rest) hl) hstep

theorem foldlM_total_from {I : List α → σ → Prop} {l : List α}
    (step : ∀ done a rest s, l = done ++ a :: rest → I done s →
      ∃ s', f s a = .ok s' ∧ I (done ++ [a]) s') :
    ∀ (rest done : List α) (s : σ), l = done ++ rest → I done s →
      ∃ s', rest.foldlM f s = .ok s' ∧ I l s' := by
  intro rest
  induction rest with
  | nil =>
    intro done s hl hI
    exact ⟨s, rfl, by rw [hl, List.append_nil]; exact hI⟩
  | cons a rest ih =>
    intro done s hl hI
    obtain ⟨t, ht, hI'⟩ := step done a rest s hl hI
    obtain ⟨s', hs', hIl⟩ := ih (done ++ [a]) t (by rw [hl]; simp) hI'
    exact ⟨s', foldlM_cons_ok.mpr ⟨t, ht, hs'⟩, hIl⟩

/-- **Progress rule.**  A loop whose every step succeeds from the invariant succeeds. -/
theorem foldlM_total {I : List α → σ → Prop} {l : List α} {s : σ} (start : I [] s)
    (step : ∀ done a rest s, l = done ++ a :: rest → I done s →
      ∃ s', f s a = .ok s' ∧ I (done ++ [a]) s') :
    ∃ s', l.foldlM f s = .ok s' ∧ I l s' :=
  foldlM_total_from step l [] s rfl start

/-- the progress rule with the elements still to come in the invariant -/
theorem foldlM_total_rest {I : List α → List α → σ → Prop} {l : List α} {s : σ} (start : I [] l s)
    (step : ∀ done a rest s, l = done ++ a :: rest → I done (a :: rest) s →
      ∃ s', f s a = .ok s' ∧ I (done ++ [a]) rest s') :
    ∃ s', l.foldlM f s = .ok s' ∧ I l [] s' := by
  obtain ⟨s', hs', hI⟩ := foldlM_total (f := f) (l := l) (s := s)
    (I := fun done t => ∀ rest, l = done ++ rest → I done rest t) (by
      intro rest hrest
      rw [List.nil_append] at hrest
      exact hrest ▸ start) (by
      intro done a rest t hl hI
      obtain ⟨t', ht', hI'⟩ := step done a rest t hl (hI (a :: rest) hl)
      exact ⟨t', ht', fun rest' hrest' => by rw [rest_eq hl hrest']; exact hI'⟩)
  exact ⟨s', hs', hI [] (List.append_nil l).symm⟩

end

/-- the run rule of a loop that cannot fail -/
theorem foldl_run {f : σ → α → σ} {I : List α → σ → Prop} {l : List α} {s : σ} (start : I [] s)
    (step : ∀ done a rest s, l = done ++ a :: rest → I done s → I (done ++ [a]) (f s a)) :
    I l (l.foldl f s) := by
  have hrun : ∀ (rest done : List α) (s : σ), l = done ++ rest → I done s →
      I l (rest.foldl f s) := by
    intro rest
    induction rest with
    | nil =>
      intro done s hl hI
      rw [hl, List.append_nil]
      exact hI
    | cons a rest ih =>
      intro done s hl hI
      exact ih (done ++ [a]) (f s a) (by rw [hl]; simp) (step done a rest s hl hI)
  exact hrun l [] s rfl start

/-- the same with the elements still to come in the invariant -/
theorem foldl_run_rest {f : σ → α → σ} {I : List α → List α → σ → Prop} {l : List α} {s : σ}
    (start : I [] l s)
    (step : ∀ done a rest s, l = done ++ a :: rest → I done (a :: rest) s →
      I (done ++ [a]) rest (f s a)) : I l [] (l.foldl f s) := by
  refine foldl_run (I := fun done t => ∀ rest, l = done ++ rest → I done rest t) ?_ ?_ []
    (List.append_nil l).symm
  · intro rest hrest
    rw [List.nil_append] at hrest
    exact hrest ▸ start
  · intro done a rest t hl hI rest' hrest'
    rw [rest_eq hl hrest']
    exact step done a rest t hl (hI (a :: rest) hl)

theorem split_of_pairwise {R : α → α → Prop} {l done rest : List α} {a : α} (h : l.Pairwise R)
    (hl : l = done ++ a :: rest) : (∀ b ∈ done, R b a) ∧ (∀ b ∈ rest, R a b) := by
  rw [hl, List.pairwise_append, List.pairwise_cons] at h
  exact ⟨fun b hb => h.2.2 b hb a (List.mem_cons_self ..), h.2.1.1⟩

/-! ## pointwise loops -/

theorem mapM_cons_ok {g : α → Except ε β} {a : α} {l : List α} {r : List β} :
    (a :: l).mapM g = .ok r ↔ ∃ b bs, g a = .ok b ∧ l.mapM g = .ok bs ∧ r = b :: bs := by
  rw [List.mapM_cons, bind_eq_ok]
  constructor
  · rintro ⟨b, hb, h⟩
    obtain ⟨bs, hbs, h⟩ := bind_eq_ok.mp h
    cases h
    exact ⟨b, bs, hb, hbs, rfl⟩
  · rintro ⟨b, bs, hb, hbs, rfl⟩
    exact ⟨b, hb, bind_eq_ok.mpr ⟨bs, hbs, rfl⟩⟩

theorem mapM_ok {g : α → Except ε β} {l : List α} {r : List β} (h : l.mapM g = .ok r) :
    List.Forall₂ (fun a b => g a = .ok b) l r := by
  induction l generalizing r with
  | nil => cases h; exact List.Forall₂.nil
  | cons a l ih =>
    obtain ⟨b, bs, hb, hbs, rfl⟩ := mapM_cons_ok.mp h
    exact List.Forall₂.cons hb (ih hbs)

theorem mapM_ok_mem {g : α → Except ε β} {l : List α} {r : List β} (h : l.mapM g = .ok r) {a : α}
    (ha : a ∈ l) : ∃ b, g a = .ok b := by
  have hf := mapM_ok h
  clear h
  induction hf with
  | nil => cases ha
  | cons hb _ ih =>
    rcases List.mem_cons.mp ha with rfl | ha
    · exact ⟨_, hb⟩
    · exact ih ha

theorem mapM_of {g : α → Except ε β} {v : α → β} {l : List α} (h : ∀ a ∈ l, g a = .ok (v a)) :
    l.mapM g = .ok (l.map v) := by
  induction l with
  | nil => rfl
  | cons a l ih =>
    rw [List.map_cons]
    exact mapM_cons_ok.mpr ⟨v a, l.map v, h a (List.mem_cons_self ..),
      ih (fun b hb => h b (List.mem_cons_of_mem _ hb)), rfl⟩

theorem mapM_error {g : α → Except ε β} {l : List α} {e : ε} (h : l.mapM g = .error e) :
    ∃ a ∈ l, g a = .error e := by
  induction l with
  | nil => cases h
  | cons a l ih =>
    rw [List.mapM_cons] at h
    cases ha : g a with
    | error e' =>
      rw [ha] at h
      cases h
      exact ⟨a, List.mem_cons_self .., ha⟩
    | ok b =>
      rw [ha, ok_bind] at h
      cases hl : l.mapM g with
      | error e' =>
        rw [hl] at h
        cases h
        obtain ⟨a', ha', he⟩ := ih hl
        exact ⟨a', List.mem_cons_of_mem _ ha', he⟩
      | ok bs =>
        rw [hl] at h
        cases h

theorem mapM_total {g : α → Except ε β} {l : List α} (h : ∀ a ∈ l, ∃ b, g a = .ok b) :
    ∃ r, l.mapM g = .ok r := by
  cases hm : l.mapM g with
  | ok r => exact ⟨r, rfl⟩
  | error e =>
    obtain ⟨a, ha, he⟩ := mapM_error hm
    obtain ⟨b, hb⟩ := h a ha
    rw [hb] at he
    cases he

end Fallible
