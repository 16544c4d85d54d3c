import Mathlib.Data.String.Basic

/-!
# JSON texts

Values as JSON has them, with whole numbers only.

* `write`, `text`             the text of a value, without white space;
* `parseValue`, `read`        the reader, for texts with white space anywhere;
* `read_text`                 what was written is read back: the text determines the value.

The characters that delimit strings and objects and start escapes are written by their codes.
-/

inductive Json where
  | null
  | bool (b : Bool)
  | num (n : ℤ)
  | str (s : String)
  | arr (elems : List Json)
  | obj (props : List (String × Json))
deriving Repr

namespace Json

/-! ## writing -/

def numChars (n : ℤ) : List Char :=
  if n < 0 then '-' :: Nat.toDigits 10 n.natAbs else Nat.toDigits 10 n.natAbs

/-- a character inside a string -/
def escape (c : Char) : List Char :=
  if c = '\x22' then ['\x5c', '\x22']
  else if c = '\x5c' then ['\x5c', '\x5c']
  else if c = '\x08' then ['\x5c', 'b']
  else if c = '\t' then ['\x5c', 't']
  else if c = '\n' then ['\x5c', 'n']
  else if c = '\x0c' then ['\x5c', 'f']
  else if c = '\r' then ['\x5c', 'r']
  else if c.toNat < 32 then
    ['\x5c', 'u', '0', '0', Nat.digitChar (c.toNat / 16), Nat.digitChar (c.toNat % 16)]
  else [c]

def strChars (s : List Char) : List Char := '\x22' :: (s.flatMap escape ++ ['\x22'])

mutual

def write : Json → List Char
  | .null => ['n', 'u', 'l', 'l']
  | .bool true => ['t', 'r', 'u', 'e']
  | .bool false => ['f', 'a', 'l', 's', 'e']
  | .num n => numChars n
  | .str s => strChars s.toList
  | .arr [] => ['[', ']']
  | .arr (x :: l) => '[' :: (write x ++ writeElems l)
  | .obj [] => ['\x7b', '\x7d']
  | .obj ((k, v) :: l) => '\x7b' :: (strChars k.toList ++ ':' :: (write v ++ writeProps l))

/-- the elements after the first -/
def writeElems : List Json → List Char
  | [] => [']']
  | x :: l => ',' :: (write x ++ writeElems l)

/-- the properties after the first -/
def writeProps : List (String × Json) → List Char
  | [] => ['\x7d']
  | (k, v) :: l => ',' :: (strChars k.toList ++ ':' :: (write v ++ writeProps l))

end

def text (j : Json) : String := String.ofList j.write

/-! ## reading -/

def skipSpace : List Char → List Char
  | [] => []
  | c :: cs => if c = ' ' ∨ c = '\t' ∨ c = '\n' ∨ c = '\r' then skipSpace cs else c :: cs

/-- digits without a leading zero -/
def parseNat (cs : List Char) : Option (ℕ × List Char) :=
  let digits := cs.takeWhile Char.isDigit
  if digits = [] then none
  else if 1 < digits.length ∧ digits.head? = some '0' then none
  else some (Nat.ofDigitChars 10 digits 0, cs.dropWhile Char.isDigit)

def hexValue (c : Char) : Option ℕ :=
  if c.isDigit then some (c.toNat - 48)
  else if 'a' ≤ c ∧ c ≤ 'f' then some (c.toNat - 87)
  else if 'A' ≤ c ∧ c ≤ 'F' then some (c.toNat - 55)
  else none

/-- four hexadecimal digits; a half of a surrogate pair is not a character -/
def hexChar (a b c d : Char) : Option Char := do
  let a ← hexValue a
  let b ← hexValue b
  let c ← hexValue c
  let d ← hexValue d
  let n := ((a * 16 + b) * 16 + c) * 16 + d
  if 0xD800 ≤ n ∧ n ≤ 0xDFFF then none else some (Char.ofNat n)

/-- the character that an escape of one letter stands for -/
def unescape (c : Char) : Option Char :=
  if c = '\x22' ∨ c = '\x5c' ∨ c = '/' then some c
  else if c = 'b' then some '\x08'
  else if c = 't' then some '\t'
  else if c = 'n' then some '\n'
  else if c = 'f' then some '\x0c'
  else if c = 'r' then some '\r'
  else none

/-- the characters of a string up to its end, and what comes after it -/
def parseChars : List Char → Option (List Char × List Char)
  | [] => none
  | c :: cs =>
    if c = '\x22' then some ([], cs)
    else if c = '\x5c' then
      match cs with
      | [] => none
      | e :: cs =>
        if e = 'u' then
          match cs with
          | a :: b :: c :: d :: cs => do
            let x ← hexChar a b c d
            let (s, cs) ← parseChars cs
            some (x :: s, cs)
          | _ => none
        else do
          let x ← unescape e
          let (s, cs) ← parseChars cs
          some (x :: s, cs)
    else if c.toNat < 32 then none
    else do
      let (s, cs) ← parseChars cs
      some (c :: s, cs)

/-- the rest of a keyword -/
def keyword (w : List Char) (j : Json) (cs : List Char) : Option (Json × List Char) :=
  if w.isPrefixOf cs then some (j, cs.drop w.length) else none

/-- the name of a property and the colon after it -/
def parseName (cs : List Char) : Option (String × List Char) :=
  match skipSpace cs with
  | [] => none
  | c :: cs =>
    if c = '\x22' then do
      let (s, cs) ← parseChars cs
      match skipSpace cs with
      | [] => none
      | c :: cs => if c = ':' then some (String.ofList s, cs) else none
    else none

mutual

def parseValue : ℕ → List Char → Option (Json × List Char)
  | 0, _ => none
  | fuel + 1, cs =>
    match skipSpace cs with
    | [] => none
    | c :: cs =>
      if c = '\x22' then do
        let (s, cs) ← parseChars cs
        some (.str (String.ofList s), cs)
      else if c = '[' then
        if (skipSpace cs).head? = some ']' then some (.arr [], (skipSpace cs).tail)
        else do
          let (l, cs) ← parseElems fuel cs
          some (.arr l, cs)
      else if c = '\x7b' then
        if (skipSpace cs).head? = some '\x7d' then some (.obj [], (skipSpace cs).tail)
        else do
          let (l, cs) ← parseProps fuel cs
          some (.obj l, cs)
      else if c = '-' then do
        let (n, cs) ← parseNat cs
        some (.num (-n), cs)
      else if c.isDigit then do
        let (n, cs) ← parseNat (c :: cs)
        some (.num n, cs)
      else if c = 'n' then keyword ['u', 'l', 'l'] .null cs
      else if c = 't' then keyword ['r', 'u', 'e'] (.bool true) cs
      else if c = 'f' then keyword ['a', 'l', 's', 'e'] (.bool false) cs
      else none

/-- elements up to the end of the array -/
def parseElems : ℕ → List Char → Option (List Json × List Char)
  | 0, _ => none
  | fuel + 1, cs => do
    let (x, cs) ← parseValue fuel cs
    match skipSpace cs with
    | [] => none
    | c :: cs =>
      if c = ']' then some ([x], cs)
      else if c = ',' then do
        let (l, cs) ← parseElems fuel cs
        some (x :: l, cs)
      else none

/-- properties up to the end of the object -/
def parseProps : ℕ → List Char → Option (List (String × Json) × List Char)
  | 0, _ => none
  | fuel + 1, cs => do
    let (k, cs) ← parseName cs
    let (v, cs) ← parseValue fuel cs
    match skipSpace cs with
    | [] => none
    | c :: cs =>
      if c = '\x7d' then some ([(k, v)], cs)
      else if c = ',' then do
        let (l, cs) ← parseProps fuel cs
        some ((k, v) :: l, cs)
      else none

end

/-! ## numbers -/

/-- the next character is not a digit -/
def NoDigit (cs : List Char) : Prop := ∀ c ∈ cs.head?, c.isDigit = false

theorem toDigits_isDigit (n : ℕ) : ∀ c ∈ Nat.toDigits 10 n, c.isDigit = true := by
  intro c hc
  exact Nat.isDigit_of_mem_toDigits (by decide) (by decide) hc

/-- only zero is written with a zero in front -/
theorem toDigits_head {n : ℕ} (h : (Nat.toDigits 10 n).head? = some '0') :
    (Nat.toDigits 10 n).length = 1 := by
  induction n using Nat.strong_induction_on with
  | _ n ih =>
    rw [Nat.toDigits_eq_if (by decide)] at h ⊢
    split_ifs at h ⊢ with hn
    · rfl
    · have hne : Nat.toDigits 10 (n / 10) ≠ [] := Nat.toDigits_ne_nil
      rw [List.head?_append_of_ne_nil _ hne] at h
      have hlen := ih (n / 10) (by omega) h
      obtain ⟨c, hc⟩ := List.length_eq_one_iff.mp hlen
      have hval : Nat.ofDigitChars 10 (Nat.toDigits 10 (n / 10)) 0 = n / 10 :=
        Nat.ofDigitChars_ten_toDigits
      rw [hc, List.head?_cons, Option.some.injEq] at h
      rw [hc, h, show Nat.ofDigitChars 10 ['0'] 0 = 0 from rfl] at hval
      omega

theorem parseNat_toDigits (n : ℕ) {rest : List Char} (hr : NoDigit rest) :
    parseNat (Nat.toDigits 10 n ++ rest) = some (n, rest) := by
  have hall := toDigits_isDigit n
  have htake : (Nat.toDigits 10 n ++ rest).takeWhile Char.isDigit = Nat.toDigits 10 n := by
    rw [List.takeWhile_append_of_pos hall]
    cases rest with
    | nil => simp
    | cons c cs => simp [hr c (by simp)]
  have hdrop : (Nat.toDigits 10 n ++ rest).dropWhile Char.isDigit = rest := by
    rw [List.dropWhile_append_of_pos hall]
    cases rest with
    | nil => rfl
    | cons c cs => simp [hr c (by simp)]
  have hlead : ¬ (1 < (Nat.toDigits 10 n).length ∧ (Nat.toDigits 10 n).head? = some '0') := by
    rintro ⟨hlen, hhead⟩
    have := toDigits_head hhead
    omega
  unfold parseNat
  rw [htake, hdrop, if_neg Nat.toDigits_ne_nil, if_neg hlead, Nat.ofDigitChars_ten_toDigits]

/-! ## strings -/

theorem hexValue_digitChar : ∀ n, n < 16 → hexValue (Nat.digitChar n) = some n := by decide

theorem hexChar_digits {n : ℕ} (h : n < 32) :
    hexChar '0' '0' (Nat.digitChar (n / 16)) (Nat.digitChar (n % 16)) = some (Char.ofNat n) := by
  have h0 : hexValue '0' = some 0 := rfl
  have h1 := hexValue_digitChar (n / 16) (by omega)
  have h2 := hexValue_digitChar (n % 16) (by omega)
  have hn : ((0 * 16 + 0) * 16 + n / 16) * 16 + n % 16 = n := by omega
  simp only [hexChar, h0, h1, h2, Option.bind_eq_bind, Option.bind_some, hn]
  rw [if_neg (by omega)]

theorem parseChars_unescape {e x : Char} (hu : e ≠ 'u') (h : unescape e = some x) (cs : List Char) :
    parseChars ('\x5c' :: e :: cs) = (parseChars cs).map fun p => (x :: p.1, p.2) := by
  rw [parseChars.eq_def]
  cases hcs : parseChars cs <;> simp [hu, h, hcs]

theorem parseChars_hex {a b c d x : Char} (h : hexChar a b c d = some x) (cs : List Char) :
    parseChars ('\x5c' :: 'u' :: a :: b :: c :: d :: cs) =
      (parseChars cs).map fun p => (x :: p.1, p.2) := by
  rw [parseChars.eq_def]
  cases hcs : parseChars cs <;> simp [h, hcs]

theorem parseChars_plain {c : Char} (hquote : c ≠ '\x22') (hslash : c ≠ '\x5c') (h : ¬ c.toNat < 32)
    (cs : List Char) : parseChars (c :: cs) = (parseChars cs).map fun p => (c :: p.1, p.2) := by
  rw [parseChars.eq_def]
  cases hcs : parseChars cs <;> simp [hquote, hslash, h, hcs]

theorem parseChars_escape (c : Char) (cs : List Char) :
    parseChars (escape c ++ cs) = (parseChars cs).map fun p => (c :: p.1, p.2) := by
  unfold escape
  split_ifs with h1 h2 h3 h4 h5 h6 h7 h8
  case pos => subst h1; exact parseChars_unescape (by decide) rfl cs
  case pos => subst h2; exact parseChars_unescape (by decide) rfl cs
  case pos => subst h3; exact parseChars_unescape (by decide) rfl cs
  case pos => subst h4; exact parseChars_unescape (by decide) rfl cs
  case pos => subst h5; exact parseChars_unescape (by decide) rfl cs
  case pos => subst h6; exact parseChars_unescape (by decide) rfl cs
  case pos => subst h7; exact parseChars_unescape (by decide) rfl cs
  case pos =>
    have hx := hexChar_digits h8
    rw [Char.ofNat_toNat] at hx
    exact parseChars_hex hx cs
  case neg => exact parseChars_plain h1 h2 h8 cs

theorem parseChars_flatMap (s rest : List Char) :
    parseChars (s.flatMap escape ++ '\x22' :: rest) = some (s, rest) := by
  induction s with
  | nil => rw [List.flatMap_nil, List.nil_append, parseChars.eq_def]; simp
  | cons c s ih => rw [List.flatMap_cons, List.append_assoc, parseChars_escape, ih]; rfl

/-! ## values -/

/-- characters that a value starts with -/
def Starts (c : Char) : Prop := c ∉ [' ', '\t', '\n', '\r', ',', ']', '\x7d']

theorem isDigit_starts {c : Char} (h : c.isDigit = true) : Starts c := by
  intro hc
  simp only [List.mem_cons, List.not_mem_nil, or_false] at hc
  obtain rfl | rfl | rfl | rfl | rfl | rfl | rfl := hc <;> exact Bool.false_ne_true h

theorem write_head (j : Json) : ∃ c cs, j.write = c :: cs ∧ Starts c := by
  have hd (n : ℕ) : ∃ c cs, Nat.toDigits 10 n = c :: cs ∧ Starts c := by
    obtain ⟨c, cs, hc⟩ := List.exists_cons_of_ne_nil (Nat.toDigits_ne_nil (n := n) (b := 10))
    exact ⟨c, cs, hc, isDigit_starts (toDigits_isDigit n c (by simp [hc]))⟩
  cases j with
  | null => exact ⟨_, _, rfl, by simp [Starts]⟩
  | bool b => cases b <;> exact ⟨_, _, rfl, by simp [Starts]⟩
  | num n =>
    by_cases hn : n < 0
    · exact ⟨'-', Nat.toDigits 10 n.natAbs, by simp [write, numChars, hn], by simp [Starts]⟩
    · simpa [write, numChars, hn] using hd n.natAbs
  | str s => exact ⟨_, _, rfl, by simp [Starts]⟩
  | arr l => cases l <;> exact ⟨_, _, rfl, by simp [Starts]⟩
  | obj l => cases l <;> exact ⟨_, _, rfl, by simp [Starts]⟩

theorem skipSpace_cons {c : Char} (h : Starts c) (cs : List Char) :
    skipSpace (c :: cs) = c :: cs := by
  simp only [Starts, List.mem_cons, List.not_mem_nil, or_false, not_or] at h
  simp [skipSpace, h]

theorem skipSpace_write (j : Json) (rest : List Char) :
    skipSpace (j.write ++ rest) = j.write ++ rest := by
  obtain ⟨c, cs, hj, hc⟩ := write_head j
  rw [hj]
  exact skipSpace_cons hc _

/-- the reader gives back what was written, and what follows it -/
def Reads (j : Json) : Prop := ∀ fuel rest, j.write.length ≤ fuel → NoDigit rest →
  parseValue fuel (j.write ++ rest) = some (j, rest)

theorem reads_null : Reads .null := by
  rintro (_ | fuel) rest hf -
  · simp [write] at hf
  · simp [write, parseValue, skipSpace, keyword, List.isPrefixOf]

theorem reads_bool (b : Bool) : Reads (.bool b) := by
  rintro (_ | fuel) rest hf -
  · cases b <;> simp [write] at hf
  · cases b <;> simp [write, parseValue, skipSpace, keyword, List.isPrefixOf]

theorem reads_str (s : String) : Reads (.str s) := by
  rintro (_ | fuel) rest hf -
  · simp [write, strChars] at hf
  · simp [write, strChars, parseValue, skipSpace, parseChars_flatMap]

theorem parseValue_digit {c : Char} (h : c.isDigit = true) (fuel : ℕ) (cs : List Char) :
    parseValue (fuel + 1) (c :: cs) = (parseNat (c :: cs)).map fun p => (.num p.1, p.2) := by
  have hquote : c ≠ '\x22' := by rintro rfl; exact Bool.false_ne_true h
  have hbracket : c ≠ '[' := by rintro rfl; exact Bool.false_ne_true h
  have hbrace : c ≠ '\x7b' := by rintro rfl; exact Bool.false_ne_true h
  have hminus : c ≠ '-' := by rintro rfl; exact Bool.false_ne_true h
  rw [parseValue, skipSpace_cons (isDigit_starts h)]
  cases hn : parseNat (c :: cs) <;> simp [h, hquote, hbracket, hbrace, hminus, hn]

theorem reads_num (n : ℤ) : Reads (.num n) := by
  rintro (_ | fuel) rest hf hr
  · simp only [write, numChars] at hf
    split at hf <;> simp at hf
  · by_cases hn : n < 0
    · have hneg : -(n.natAbs : ℤ) = n := by omega
      have hread : parseValue (fuel + 1) ('-' :: (Nat.toDigits 10 n.natAbs ++ rest)) =
          (parseNat (Nat.toDigits 10 n.natAbs ++ rest)).map fun p => (.num (-(p.1 : ℤ)), p.2) := by
        cases hn : parseNat (Nat.toDigits 10 n.natAbs ++ rest) <;> simp [parseValue, skipSpace, hn]
      rw [write, numChars, if_pos hn, List.cons_append, hread, parseNat_toDigits _ hr,
        Option.map_some, hneg]
    · obtain ⟨c, cs, hc⟩ := List.exists_cons_of_ne_nil (Nat.toDigits_ne_nil (n := n.natAbs) (b := 10))
      have hdigit := toDigits_isDigit n.natAbs c (by simp [hc])
      have habs : (n.natAbs : ℤ) = n := by omega
      have hread := parseNat_toDigits n.natAbs hr
      rw [hc] at hread
      rw [write, numChars, if_neg hn, hc, List.cons_append, parseValue_digit hdigit]
      rw [← List.cons_append, hread, Option.map_some, habs]

theorem parseElems_write {x : Json} {l : List Json} (hx : Reads x) (hl : ∀ y ∈ l, Reads y) :
    ∀ fuel rest, (x.write ++ writeElems l).length ≤ fuel →
      parseElems fuel (x.write ++ (writeElems l ++ rest)) = some (x :: l, rest) := by
  induction l generalizing x with
  | nil =>
    rintro (_ | fuel) rest hf
    · simp [writeElems] at hf
    · have hv := hx fuel (']' :: rest) (by simpa [writeElems] using hf) (by simp [NoDigit])
      simp [parseElems, writeElems, hv, skipSpace]
  | cons y l ih =>
    rintro (_ | fuel) rest hf
    · simp [writeElems] at hf
    · simp only [writeElems, List.length_append, List.length_cons] at hf
      have hv := hx fuel (',' :: (y.write ++ (writeElems l ++ rest))) (by omega) (by simp [NoDigit])
      have hrest := ih (hl y (by simp)) (fun z hz => hl z (by simp [hz])) fuel rest
        (by rw [List.length_append]; omega)
      simp [parseElems, writeElems, hv, skipSpace, hrest]

theorem parseName_write (k : String) (cs : List Char) :
    parseName (strChars k.toList ++ ':' :: cs) = some (k, cs) := by
  simp [strChars, parseName, skipSpace, parseChars_flatMap]

theorem parseProps_write {k : String} {v : Json} {l : List (String × Json)} (hv : Reads v)
    (hl : ∀ p ∈ l, Reads p.2) :
    ∀ fuel rest, (strChars k.toList ++ ':' :: (v.write ++ writeProps l)).length ≤ fuel →
      parseProps fuel (strChars k.toList ++ ':' :: (v.write ++ (writeProps l ++ rest))) =
        some ((k, v) :: l, rest) := by
  induction l generalizing k v with
  | nil =>
    rintro (_ | fuel) rest hf
    · simp at hf
    · simp only [writeProps, List.length_append, List.length_cons, List.length_nil] at hf
      have hread := hv fuel ('\x7d' :: rest) (by omega) (by simp [NoDigit])
      simp [parseProps, writeProps, parseName_write, hread, skipSpace]
  | cons p l ih =>
    obtain ⟨k', v'⟩ := p
    rintro (_ | fuel) rest hf
    · simp at hf
    · simp only [writeProps, List.length_append, List.length_cons] at hf
      have hread := hv fuel (',' :: (strChars k'.toList ++ ':' :: (v'.write ++ (writeProps l ++ rest))))
        (by omega) (by simp [NoDigit])
      have hrest := ih (k := k') (hl (k', v') (by simp)) (fun q hq => hl q (by simp [hq])) fuel rest
        (by simp only [List.length_append, List.length_cons]; omega)
      simp [parseProps, writeProps, parseName_write, hread, skipSpace, hrest]

theorem parseValue_bracket {cs : List Char} (h : (skipSpace cs).head? ≠ some ']') (fuel : ℕ) :
    parseValue (fuel + 1) ('[' :: cs) = (parseElems fuel cs).map fun p => (.arr p.1, p.2) := by
  cases hl : parseElems fuel cs <;> simp [parseValue, skipSpace, h, hl]

theorem parseValue_brace {cs : List Char} (h : (skipSpace cs).head? ≠ some '\x7d') (fuel : ℕ) :
    parseValue (fuel + 1) ('\x7b' :: cs) = (parseProps fuel cs).map fun p => (.obj p.1, p.2) := by
  cases hl : parseProps fuel cs <;> simp [parseValue, skipSpace, h, hl]

theorem reads_arr {l : List Json} (hl : ∀ y ∈ l, Reads y) : Reads (.arr l) := by
  rintro (_ | fuel) rest hf -
  · cases l <;> simp [write] at hf
  · cases l with
    | nil => simp [write, parseValue, skipSpace]
    | cons x l =>
      obtain ⟨c, cs, hc, hstart⟩ := write_head x
      have hclose : c ≠ ']' := by rintro rfl; simp [Starts] at hstart
      have hspace := skipSpace_write x (writeElems l ++ rest)
      have helems := parseElems_write (hl x (by simp)) (fun y hy => hl y (List.mem_cons_of_mem _ hy))
        fuel rest (by simpa [write] using hf)
      have hhead : (skipSpace (x.write ++ (writeElems l ++ rest))).head? ≠ some ']' := by
        rw [hspace, hc, List.cons_append, List.head?_cons]
        exact fun h => hclose (Option.some.inj h)
      rw [write, List.cons_append, List.append_assoc, parseValue_bracket hhead, helems]
      rfl

theorem reads_obj {l : List (String × Json)} (hl : ∀ p ∈ l, Reads p.2) : Reads (.obj l) := by
  rintro (_ | fuel) rest hf -
  · rcases l with _ | ⟨⟨k, v⟩, l⟩ <;> simp [write] at hf
  · rcases l with _ | ⟨⟨k, v⟩, l⟩
    · simp [write, parseValue, skipSpace]
    · have hprops := parseProps_write (k := k) (hl (k, v) (by simp)) (fun p hp =>
        hl p (List.mem_cons_of_mem _ hp)) fuel rest (by simpa [write] using hf)
      have hhead : (skipSpace (strChars k.toList ++ ':' :: (v.write ++ (writeProps l ++ rest)))).head? ≠
          some '\x7d' := by
        rw [strChars, List.cons_append, skipSpace_cons (by simp [Starts]), List.head?_cons]
        decide
      rw [write, List.cons_append, List.append_assoc, List.cons_append, List.append_assoc,
        parseValue_brace hhead, hprops]
      rfl

mutual

theorem reads : ∀ j : Json, Reads j
  | .null => reads_null
  | .bool b => reads_bool b
  | .num n => reads_num n
  | .str s => reads_str s
  | .arr l => reads_arr (reads_elems l)
  | .obj l => reads_obj (reads_props l)

theorem reads_elems : ∀ (l : List Json), ∀ y ∈ l, Reads y
  | [], _, h => nomatch h
  | x :: l, y, h => (List.mem_cons.mp h).elim (fun e => e ▸ reads x) (reads_elems l y)

theorem reads_props : ∀ (l : List (String × Json)), ∀ p ∈ l, Reads p.2
  | [], _, h => nomatch h
  | (k, v) :: l, p, h => (List.mem_cons.mp h).elim (fun e => by rw [e]; exact reads v) (reads_props l p)

end

/-! ## texts -/

/-- the syntax of a text: a value and nothing after it but white space -/
def read (s : String) : Option Json := do
  let (j, cs) ← parseValue s.toList.length s.toList
  if skipSpace cs = [] then some j else none

theorem read_text (j : Json) : read j.text = some j := by
  have h := reads j j.write.length [] le_rfl (by simp [NoDigit])
  rw [List.append_nil] at h
  simp [read, text, h, skipSpace]

theorem text_injective : Function.Injective text := by
  intro j k h
  have hj := read_text j
  rw [h, read_text k] at hj
  exact (Option.some.inj hj).symm

instance : DecidableEq Json := fun _ _ => decidable_of_iff _ text_injective.eq_iff

end Json
