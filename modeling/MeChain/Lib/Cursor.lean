import MeChain.Lib.Loop

/-!
# Reading a buffer at a cursor

A reader is a buffer and a position in it; an action reads some of what lies ahead and moves on.
`Reads` says what an action makes of one piece of the buffer, wherever the piece stands and whatever
follows it: a value with the cursor behind the piece, or an error.

* `Reads.bind`    one action after another reads the pieces one after the other;
* `Chain`         the pieces that a loop takes in, one for each pass;
* `Chain.bind`    the pieces of one chain and then those of another;
* `Chain.reads`   a loop that runs up to a position reads the pieces in front of it.
-/

namespace Cursor
open Loop

structure Reader (β : Type) where
  buf : List β
  pos : Nat

abbrev Reading (ε β α : Type) := StateT (Reader β) (Except ε) α

section
variable {ε β α γ σ : Type}

/-- what an action makes of a piece of the buffer -/
def Reads (act : Reading ε β α) (bs : List β) (r : Except ε α) : Prop :=
  ∀ pre post : List β, act.run ⟨pre ++ (bs ++ post), pre.length⟩ =
    r.map fun a => (a, ⟨pre ++ (bs ++ post), pre.length + bs.length⟩)

theorem Reads.pure (a : α) : Reads (pure a : Reading ε β α) [] (.ok a) := fun _ _ => rfl

theorem Reads.bind {act : Reading ε β α} {f : α → Reading ε β γ} {bs cs : List β} {a : α}
    {r : Except ε γ} (h : Reads act bs (.ok a)) (hf : Reads (f a) cs r) :
    Reads (act >>= f) (bs ++ cs) r := by
  intro pre post
  have hact := h pre (cs ++ post)
  have hcs := hf (pre ++ bs) post
  rw [List.append_assoc, List.length_append] at hcs
  rw [StateT.run_bind, List.append_assoc, List.length_append, ← Nat.add_assoc, hact]
  exact hcs

theorem Reads.fails {act : Reading ε β α} {f : α → Reading ε β γ} {bs : List β} {e : ε}
    (h : Reads act bs (.error e)) (cs : List β) : Reads (act >>= f) (bs ++ cs) (.error e) := by
  intro pre post
  have hact := h pre (cs ++ post)
  rw [StateT.run_bind, List.append_assoc, hact]
  rfl

/-- what is done with the value does not touch the buffer -/
theorem Reads.map {act : Reading ε β α} {bs : List β} {r : Except ε α} (f : α → γ)
    (h : Reads act bs r) : Reads (act >>= fun a => Pure.pure (f a)) bs (r.map f) := by
  rw [← List.append_nil bs]
  cases r with
  | ok a => exact h.bind (.pure (f a))
  | error e => exact h.fails []

/-! ## loops -/

/-- one pass of a loop that runs while the position is in front of `stop` -/
def pass (stop : Nat) (body : σ → Reading ε β σ) (s : σ × Reader β) :
    Except ε (Turn (σ × Reader β) (σ × Reader β)) :=
  if s.2.pos < stop then do
    let s' ← (body s.1).run s.2
    .ok (.again s')
  else .ok (.done s)

/-- The loop makes at most one pass for each position: a pass that does not move is an error. -/
def readUpTo (stuck : ε) (stop : Nat) (body : σ → Reading ε β σ) (s : σ) : Reading ε β σ :=
  fun reader => loop (pass stop body) stuck (stop - reader.pos + 1) (s, reader)

/-- the pieces that the passes of a loop read, and what the loop makes of them -/
inductive Chain (body : σ → Reading ε β σ) : σ → List β → Except ε σ → Prop
  | nil {s : σ} : Chain body s [] (.ok s)
  | again {s s' : σ} {bs cs : List β} {r : Except ε σ} : bs ≠ [] → Reads (body s) bs (.ok s') →
      Chain body s' cs r → Chain body s (bs ++ cs) r
  | fails {s : σ} {bs cs : List β} {e : ε} : bs ≠ [] → Reads (body s) bs (.error e) →
      Chain body s (bs ++ cs) (.error e)

variable {body : σ → Reading ε β σ}

theorem Chain.one {s : σ} {bs : List β} {r : Except ε σ} (hne : bs ≠ []) (h : Reads (body s) bs r) :
    Chain body s bs r := by
  rw [← List.append_nil bs]
  cases r with
  | ok s' => exact .again hne h .nil
  | error e => exact .fails hne h

/-- after the pieces of one chain those of another, which may depend on what the first one made -/
theorem Chain.bind {s : σ} {as bs : List β} {r : Except ε σ} {k : σ → Except ε σ}
    (h : Chain body s as r) (hk : ∀ s', r = .ok s' → Chain body s' bs (k s')) :
    Chain body s (as ++ bs) (r >>= k) := by
  induction h with
  | nil => exact hk _ rfl
  | again hne hread _ ih =>
    rw [List.append_assoc]
    exact .again hne hread (ih hk)
  | fails hne hread =>
    rw [List.append_assoc]
    exact .fails hne hread

/-- the same when the first chain puts a value in its place -/
theorem Chain.bind_map {s : σ} {as bs : List β} {r : Except ε α} {f : α → σ} {k : α → Except ε σ}
    (h : Chain body s as (r.map f)) (hk : ∀ a, r = .ok a → Chain body (f a) bs (k a)) :
    Chain body s (as ++ bs) (r >>= k) := by
  cases r with
  | ok a =>
    refine h.bind (k := fun _ => k a) fun s' hs' => ?_
    cases hs'
    exact hk a rfl
  | error e => exact h.bind (k := Except.ok) fun s' hs' => by cases hs'

theorem Chain.append {s s' : σ} {as bs : List β} {r : Except ε σ} (h : Chain body s as (.ok s'))
    (hr : Chain body s' bs r) : Chain body s (as ++ bs) r := by
  refine h.bind (k := fun _ => r) fun t ht => ?_
  cases ht
  exact hr

theorem Chain.loop_eq {s : σ} {bs : List β} {r : Except ε σ} (h : Chain body s bs r)
    (pre post : List β) (stuck : ε) {passes : Nat} (hp : bs.length < passes) :
    loop (pass (pre.length + bs.length) body) stuck passes (s, ⟨pre ++ (bs ++ post), pre.length⟩) =
      r.map fun s' => (s', ⟨pre ++ (bs ++ post), pre.length + bs.length⟩) := by
  induction h generalizing pre passes with
  | nil =>
    obtain ⟨passes, rfl⟩ := Nat.exists_eq_add_of_lt hp
    refine loop_done ?_
    rw [pass, if_neg (by simp)]
    rfl
  | @again s s' bs cs r hne hread _ ih =>
    have hpos := List.length_pos_iff.mpr hne
    rw [List.length_append] at hp
    obtain ⟨passes, rfl⟩ : ∃ n, passes = n + 1 := ⟨passes - 1, by omega⟩
    have hpass : pass (pre.length + (bs ++ cs).length) body
        (s, ⟨pre ++ (bs ++ cs ++ post), pre.length⟩) =
        .ok (.again (s', ⟨pre ++ bs ++ (cs ++ post), (pre ++ bs).length⟩)) := by
      have hbs := hread pre (cs ++ post)
      rw [pass, if_pos (by simp only [List.length_append]; omega), List.append_assoc, hbs,
        List.append_assoc, List.length_append]
      rfl
    have hrest := ih (pre ++ bs) (show cs.length < passes by omega)
    rw [loop_again hpass]
    simp only [List.append_assoc, List.length_append, Nat.add_assoc] at hrest ⊢
    exact hrest
  | @fails s bs cs e hne hread =>
    have hpos := List.length_pos_iff.mpr hne
    obtain ⟨passes, rfl⟩ : ∃ n, passes = n + 1 := ⟨passes - 1, by omega⟩
    refine loop_fails ?_
    have hbs := hread pre (cs ++ post)
    rw [pass, if_pos (by simp only [List.length_append]; omega), List.append_assoc, hbs]
    rfl

/-- **Reading up to a position.**  The loop reads the pieces that end there. -/
theorem Chain.reads {s : σ} {bs : List β} {r : Except ε σ} (h : Chain body s bs r) (stuck : ε)
    (pre post : List β) :
    (readUpTo stuck (pre.length + bs.length) body s).run ⟨pre ++ (bs ++ post), pre.length⟩ =
      r.map fun s' => (s', ⟨pre ++ (bs ++ post), pre.length + bs.length⟩) :=
  h.loop_eq pre post stuck (by simp only; omega)

end

end Cursor
