/-
# JSON texts, read by the grammar of RFC 8259

To say what a log line means, this file reads JSON texts the way RFC 8259 defines them, with no
limits of its own: any depth of nesting, numbers as exact rationals, strings as Unicode text.

* `Json` is what a text denotes: null, a boolean, a number (its exact value), a string, an array, or an
  object (its members in order, repeated keys kept).
* `Json.parse` reads one value with blank space around it and nothing else.  A number is
  `[-] int [frac] [exp]`, where `int` is `0` or a digit other than `0` and more digits, `frac` is a
  point and at least one digit, and `exp` is `e` or `E`, an optional sign and at least one digit.  A
  string holds raw bytes from `0x20` up except the quote and the backslash, and the escapes
  `\" \\ \/ \b \f \n \r \t \uXXXX`, where a `\u` escape of a surrogate must be a leading one followed
  at once by the escape of a trailing one; the bytes it stands for must be well-formed UTF-8.
* Arrays and objects are read by recursion with fuel; `parse` gives it the length of the text,
  which is more than any value in the text can use, since every call takes at least one byte.

The lemmas at the end are the reader's own equations: what it does on a literal, on a string, on a
number, on the brackets, and between the members of an array or an object.  The proofs that read
log lines back (`Proofs/Json/Strings.lean`, `Proofs/Json/RoundTrip.lean`) use these and never unfold the reader.
-/
import JsonLine.Text.Lexical
import Mathlib.Algebra.Order.Field.Rat

namespace JsonLine

/-! ## 1. Values -/

/-- **A JSON value.**  Numbers are exact; an object keeps its members in order. -/
inductive Json where
  | null
  | bool (b : Bool)
  | num (q : ℚ)
  | str (s : String)
  | arr (items : List Json)
  | obj (members : List (String × Json))
  deriving Repr

namespace Json

open Lexical (isBlank isDigit digit hexValue simpleEscape)

/-! ## 2. Blank space and digits -/

/-- Drops the blank space in front. -/
def skipWs (s : Bytes) : Bytes := s.dropWhile isBlank

/-- A run of decimal digits, and what follows it. -/
def digitRun (s : Bytes) : Bytes × Bytes := (s.takeWhile isDigit, s.dropWhile isDigit)

/-- **The value of a run of decimal digits,** most significant first. -/
def digitsValue (ds : Bytes) : Nat := ds.foldl (fun n d => 10 * n + digit d) 0

/-! ## 3. Numbers -/

/-- A minus sign in front, if any. -/
def minus : Bytes → Bool × Bytes
  | 0x2d :: r => (true, r)
  | r => (false, r)

/-- **The integer part:** `0`, or a digit other than `0` and more digits. -/
def intPart (s : Bytes) : Option (Bytes × Bytes) :=
  match digitRun s with
  | ([], _) => none
  | (0x30 :: _ :: _, _) => none
  | (ds, r) => some (ds, r)

/-- **The fraction:** a point and at least one digit, or nothing. -/
def fracPart : Bytes → Option (Bytes × Bytes)
  | 0x2e :: r =>
    match digitRun r with
    | ([], _) => none
    | (ds, r) => some (ds, r)
  | r => some ([], r)

/-- The sign of an exponent, if any: whether it is negative. -/
def expSign : Bytes → Bool × Bytes
  | 0x2d :: r => (true, r)
  | 0x2b :: r => (false, r)
  | r => (false, r)

/-- **The exponent:** `e` or `E`, an optional sign and at least one digit, or nothing (zero). -/
def expPart : Bytes → Option (Int × Bytes)
  | m :: r =>
    if m = 0x65 ∨ m = 0x45 then
      match digitRun (expSign r).2 with
      | ([], _) => none
      | (ds, r') => some (if (expSign r).1 then -(digitsValue ds : Int) else digitsValue ds, r')
    else some (0, m :: r)
  | [] => some (0, [])

/-- The value of a number from its parts: the digits of the integer part and the fraction, shifted
by the length of the fraction and by the exponent. -/
def numberValue (neg : Bool) (ip fp : Bytes) (e : Int) : ℚ :=
  (if neg then -1 else 1) * ((digitsValue (ip ++ fp) : ℚ) / 10 ^ fp.length * 10 ^ e)

/-- **A number,** and what follows it. -/
def number (s : Bytes) : Option (ℚ × Bytes) := do
  let (ip, r) ← intPart (minus s).2
  let (fp, r) ← fracPart r
  let (e, r) ← expPart r
  pure (numberValue (minus s).1 ip fp e, r)

/-! ## 4. Strings -/

/-- The value of four hexadecimal digits. -/
def hex4 (a b c d : UInt8) : Option Nat :=
  match hexValue a, hexValue b, hexValue c, hexValue d with
  | some a, some b, some c, some d => some (((a * 16 + b) * 16 + c) * 16 + d)
  | _, _, _, _ => none

/-- Puts bytes in front of what a reading gives. -/
def prepend (p : Bytes) (o : Option (Bytes × Bytes)) : Option (Bytes × Bytes) :=
  o.map fun r => (p ++ r.1, r.2)

/-- **The body of a string literal,** after its opening quote: the bytes it stands for, and what
follows its closing quote.  A `\u` escape stands for the UTF-8 bytes of its character. -/
def stringBody : Bytes → Option (Bytes × Bytes)
  | [] => none
  | 0x22 :: r => some ([], r)
  | 0x5c :: 0x75 :: a :: b :: c :: d :: r =>
    match hex4 a b c d with
    | none => none
    | some n =>
      if 0xD800 ≤ n ∧ n ≤ 0xDBFF then
        -- A leading surrogate names a character only with the trailing one after it.
        match r with
        | 0x5c :: 0x75 :: a' :: b' :: c' :: d' :: r' =>
          match hex4 a' b' c' d' with
          | some n' =>
            if 0xDC00 ≤ n' ∧ n' ≤ 0xDFFF then
              prepend (String.utf8EncodeChar (Char.ofNat (0x10000 + (n - 0xD800) * 0x400 + (n' - 0xDC00))))
                (stringBody r')
            else none
          | none => none
        | _ => none
      else if 0xDC00 ≤ n ∧ n ≤ 0xDFFF then none
      else prepend (String.utf8EncodeChar (Char.ofNat n)) (stringBody r)
  | 0x5c :: e :: r =>
    match simpleEscape e with
    | some x => prepend [x] (stringBody r)
    | none => none
  | x :: r => if x < 0x20 ∨ x = 0x5c then none else prepend [x] (stringBody r)

/-- **A string literal,** whose bytes must be well-formed UTF-8, and what follows it. -/
def string : Bytes → Option (String × Bytes)
  | 0x22 :: r => do
    let (bs, r) ← stringBody r
    let s ← Bytes.toText? bs
    pure (s, r)
  | _ => none

/-! ## 5. Arrays, objects, texts -/

mutual
/-- **A value,** and what follows it, with `fuel` for the nesting. -/
def value : Nat → Bytes → Option (Json × Bytes)
  | 0, _ => none
  | n + 1, s =>
    match s with
    | 0x6e :: 0x75 :: 0x6c :: 0x6c :: r => some (.null, r)
    | 0x74 :: 0x72 :: 0x75 :: 0x65 :: r => some (.bool true, r)
    | 0x66 :: 0x61 :: 0x6c :: 0x73 :: 0x65 :: r => some (.bool false, r)
    | 0x5b :: r =>
      match skipWs r with
      | 0x5d :: r' => some (.arr [], r')
      | r' => (items n r').map fun x => (.arr x.1, x.2)
    | 0x7b :: r =>
      match skipWs r with
      | 0x7d :: r' => some (.obj [], r')
      | r' => (members n r').map fun x => (.obj x.1, x.2)
    | 0x22 :: _ => (string s).map fun x => (.str x.1, x.2)
    | _ => (number s).map fun x => (.num x.1, x.2)

/-- The items of an array, after its first blank space, up to and with its closing bracket. -/
def items : Nat → Bytes → Option (List Json × Bytes)
  | 0, _ => none
  | n + 1, s => do
    let (j, r) ← value n s
    match skipWs r with
    | 0x2c :: r => do
      let (js, r) ← items n (skipWs r)
      pure (j :: js, r)
    | 0x5d :: r => pure ([j], r)
    | _ => none

/-- The members of an object, after its first blank space, up to and with its closing brace. -/
def members : Nat → Bytes → Option (List (String × Json) × Bytes)
  | 0, _ => none
  | n + 1, s => do
    let (k, r) ← string s
    match skipWs r with
    | 0x3a :: r => do
      let (j, r) ← value n (skipWs r)
      match skipWs r with
      | 0x2c :: r => do
        let (ms, r) ← members n (skipWs r)
        pure ((k, j) :: ms, r)
      | 0x7d :: r => pure ([(k, j)], r)
      | _ => none
    | _ => none
end

/-- **A JSON text:** one value with blank space around it and nothing else. -/
def parse (s : Bytes) : Option Json :=
  match value s.length (skipWs s) with
  | some (j, r) => if skipWs r = [] then some j else none
  | none => none

/-! ## 6. What reads as what

`ReadsAs t j`: the text `t` starts with a byte that is not blank, and the reader, given at least
`t`'s length as fuel, reads `t` as `j` whatever closing punctuation follows it.  The constructors
below build it up from literals, strings and numbers to arrays and objects, so that a proof that a
writer's text reads back follows the shape of the value written. -/

/-- The punctuation that may follow a value: nothing, a comma, or a closing bracket or brace. -/
def Closes (rest : Bytes) : Prop := ∀ b ∈ rest.head?, b = 0x2c ∨ b = 0x5d ∨ b = 0x7d

theorem closes_nil : Closes [] := by simp [Closes]

theorem closes_comma (r : Bytes) : Closes (0x2c :: r) := by simp [Closes]

theorem closes_bracket (r : Bytes) : Closes (0x5d :: r) := by simp [Closes]

theorem closes_brace (r : Bytes) : Closes (0x7d :: r) := by simp [Closes]

theorem skipWs_nil : skipWs [] = [] := rfl

theorem skipWs_cons {b : UInt8} (h : isBlank b = false) (r : Bytes) : skipWs (b :: r) = b :: r := by
  simp [skipWs, h]

/-- **A text that reads as a value.** -/
structure ReadsAs (t : Bytes) (j : Json) : Prop where
  starts : ∃ b r, t = b :: r ∧ isBlank b = false
  reads : ∀ n rest, t.length ≤ n → Closes rest → value n (t ++ rest) = some (j, rest)

theorem ReadsAs.skipWs_append {t : Bytes} {j : Json} (h : ReadsAs t j) (rest : Bytes) :
    skipWs (t ++ rest) = t ++ rest := by
  obtain ⟨b, r, rfl, hb⟩ := h.starts
  exact skipWs_cons hb _

theorem ReadsAs.length_pos {t : Bytes} {j : Json} (h : ReadsAs t j) : 0 < t.length := by
  obtain ⟨b, r, rfl, -⟩ := h.starts
  simp

/-- **A text that reads as a value is read as the whole of a JSON text.** -/
theorem ReadsAs.parse {t : Bytes} {j : Json} (h : ReadsAs t j) : Json.parse t = some j := by
  have hv := h.reads t.length [] (Nat.le_refl _) closes_nil
  rw [List.append_nil] at hv
  have hs := h.skipWs_append []
  rw [List.append_nil] at hs
  simp [Json.parse, hs, hv, skipWs_nil]

/-! ### Literals, strings, numbers -/

theorem readsAs_null : ReadsAs [0x6e, 0x75, 0x6c, 0x6c] .null := by
  refine ⟨⟨_, _, rfl, by decide⟩, fun n rest hn _ => ?_⟩
  obtain ⟨m, rfl⟩ : ∃ m, n = m + 1 := ⟨n - 1, by simp at hn; omega⟩
  simp [value]

theorem readsAs_bool (b : Bool) :
    ReadsAs (if b then [0x74, 0x72, 0x75, 0x65] else [0x66, 0x61, 0x6c, 0x73, 0x65]) (.bool b) := by
  cases b with
  | true =>
    refine ⟨⟨_, _, rfl, by decide⟩, fun n rest hn _ => ?_⟩
    obtain ⟨m, rfl⟩ : ∃ m, n = m + 1 := ⟨n - 1, by simp at hn; omega⟩
    simp [value]
  | false =>
    refine ⟨⟨_, _, rfl, by decide⟩, fun n rest hn _ => ?_⟩
    obtain ⟨m, rfl⟩ : ∃ m, n = m + 1 := ⟨n - 1, by simp at hn; omega⟩
    simp [value]

/-- A string literal, read whatever follows it, reads as a string value. -/
theorem readsAs_string {t : Bytes} {s : String} (hq : ∃ r, t = 0x22 :: r)
    (h : ∀ rest, string (t ++ rest) = some (s, rest)) : ReadsAs t (.str s) := by
  obtain ⟨r, rfl⟩ := hq
  refine ⟨⟨_, _, rfl, by decide⟩, fun n rest hn _ => ?_⟩
  obtain ⟨m, rfl⟩ : ∃ m, n = m + 1 := ⟨n - 1, by simp at hn; omega⟩
  have hs := h rest
  simp only [List.cons_append] at hs ⊢
  simp [value, hs]

/-- The reader takes a text that starts with a minus sign or a digit as a number. -/
theorem value_of_numberStart {b : UInt8} (hb : b = 0x2d ∨ isDigit b = true) (m : Nat) (r : Bytes) :
    value (m + 1) (b :: r) = (number (b :: r)).map fun x => (.num x.1, x.2) := by
  have hrange : b = 0x2d ∨ (0x30 ≤ b ∧ b ≤ 0x39) := by
    rcases hb with h | h
    · exact .inl h
    · simp only [isDigit, Bool.and_eq_true, decide_eq_true_eq] at h
      exact .inr h
  unfold value
  -- Every other case of the reader starts with a byte that is neither a minus sign nor a digit.
  split
  all_goals first
    | rfl
    | (rename_i heq
       simp only [List.cons.injEq] at heq
       obtain ⟨rfl, -⟩ := heq
       exfalso
       revert hrange
       decide)

theorem isBlank_of_isDigit {b : UInt8} (h : isDigit b = true) : isBlank b = false := by
  simp only [isDigit, Bool.and_eq_true, decide_eq_true_eq] at h
  simp only [isBlank, Bool.or_eq_false_iff, beq_eq_false_iff_ne, ne_eq]
  obtain ⟨h1, h2⟩ := h
  rw [UInt8.le_iff_toNat_le] at h1 h2
  simp only [← UInt8.toNat_inj]
  simp at h1 h2 ⊢
  omega

/-- **A number text,** read whatever closing punctuation follows it, reads as a number value. -/
theorem readsAs_number {t : Bytes} {q : ℚ} (hstart : ∃ b r, t = b :: r ∧ (b = 0x2d ∨ isDigit b = true))
    (h : ∀ rest, Closes rest → number (t ++ rest) = some (q, rest)) : ReadsAs t (.num q) := by
  obtain ⟨b, r, rfl, hb⟩ := hstart
  have hblank : isBlank b = false := by
    rcases hb with rfl | hb
    · decide
    · exact isBlank_of_isDigit hb
  refine ⟨⟨b, r, rfl, hblank⟩, fun n rest hn hrest => ?_⟩
  obtain ⟨m, rfl⟩ : ∃ m, n = m + 1 := ⟨n - 1, by simp at hn; omega⟩
  rw [List.cons_append, value_of_numberStart hb, ← List.cons_append, h rest hrest]
  rfl

/-! ### Arrays and objects -/

theorem value_bracket (m : Nat) (r : Bytes) :
    value (m + 1) (0x5b :: r) =
      match skipWs r with
      | 0x5d :: r' => some (.arr [], r')
      | r' => (items m r').map fun x => (.arr x.1, x.2) := rfl

theorem value_brace (m : Nat) (r : Bytes) :
    value (m + 1) (0x7b :: r) =
      match skipWs r with
      | 0x7d :: r' => some (.obj [], r')
      | r' => (members m r').map fun x => (.obj x.1, x.2) := rfl

/-- No value starts with a closing bracket or brace. -/
theorem value_closing {b : UInt8} (hb : b = 0x5d ∨ b = 0x7d) (n : Nat) (r : Bytes) :
    value n (b :: r) = none := by
  rcases n with _ | m
  · rfl
  · rcases hb with rfl | rfl <;> simp [value, number, minus, intPart, digitRun, isDigit]

/-- A text that reads as a value does not start with a closing bracket or brace. -/
theorem ReadsAs.head_ne_closing {t : Bytes} {j : Json} (h : ReadsAs t j) :
    ∃ b r, t = b :: r ∧ isBlank b = false ∧ b ≠ 0x5d ∧ b ≠ 0x7d := by
  obtain ⟨b, r, rfl, hb⟩ := h.starts
  have hread := h.reads (b :: r).length [] (Nat.le_refl _) closes_nil
  refine ⟨b, r, rfl, hb, ?_, ?_⟩
  · rintro rfl
    rw [List.cons_append, value_closing (.inl rfl)] at hread
    cases hread
  · rintro rfl
    rw [List.cons_append, value_closing (.inr rfl)] at hread
    cases hread

theorem items_last {m : Nat} {s rest : Bytes} {j : Json} (h : value m s = some (j, 0x5d :: rest)) :
    items (m + 1) s = some ([j], rest) := by
  simp [items, h, skipWs_cons (by decide : isBlank 0x5d = false)]

theorem items_cons {m : Nat} {s r rest : Bytes} {j : Json} {js : List Json}
    (h : value m s = some (j, 0x2c :: r)) (h' : items m (skipWs r) = some (js, rest)) :
    items (m + 1) s = some (j :: js, rest) := by
  simp [items, h, h', skipWs_cons (by decide : isBlank 0x2c = false)]

theorem members_last {m : Nat} {s r rest : Bytes} {k : String} {j : Json}
    (hk : string s = some (k, 0x3a :: r)) (h : value m (skipWs r) = some (j, 0x7d :: rest)) :
    members (m + 1) s = some ([(k, j)], rest) := by
  simp [members, hk, h, skipWs_cons (by decide : isBlank 0x3a = false),
    skipWs_cons (by decide : isBlank 0x7d = false)]

theorem members_cons {m : Nat} {s r r' rest : Bytes} {k : String} {j : Json} {ms : List (String × Json)}
    (hk : string s = some (k, 0x3a :: r)) (h : value m (skipWs r) = some (j, 0x2c :: r'))
    (h' : members m (skipWs r') = some (ms, rest)) :
    members (m + 1) s = some ((k, j) :: ms, rest) := by
  simp [members, hk, h, h', skipWs_cons (by decide : isBlank 0x3a = false),
    skipWs_cons (by decide : isBlank 0x2c = false)]

section Containers

variable {α : Type}

/-- Texts joined by commas start with the first text. -/
theorem intercalate_cons_eq (sep a : Bytes) (as : List Bytes) :
    sep.intercalate (a :: as) = a ++ (sep.intercalate (a :: as)).drop a.length := by
  cases as with
  | nil => simp
  | cons b bs => simp [List.intercalate_cons_cons]

/-- **The items of an array** (texts that read as values, separated by commas, then the closing
bracket) read as the list of their values, given fuel for their length. -/
theorem items_intercalate (t : α → Bytes) (j : α → Json) :
    ∀ (x : α) (xs : List α), (∀ y ∈ x :: xs, ReadsAs (t y) (j y)) →
    ∀ n rest, ([0x2c].intercalate ((x :: xs).map t) ++ [0x5d]).length ≤ n →
    items n ([0x2c].intercalate ((x :: xs).map t) ++ 0x5d :: rest) = some ((x :: xs).map j, rest)
  | x, [], h, n, rest, hn => by
    have hx := h x (by simp)
    simp only [List.map_cons, List.map_nil, List.intercalate_singleton, List.length_append,
      List.length_singleton] at hn ⊢
    obtain ⟨m, rfl⟩ : ∃ m, n = m + 1 := ⟨n - 1, by omega⟩
    exact items_last (hx.reads m _ (by omega) (closes_bracket rest))
  | x, y :: ys, h, n, rest, hn => by
    have hx := h x (by simp)
    have hy := h y (by simp)
    -- The items after the first comma, with the closing bracket: the same shape, one item fewer.
    have htail := items_intercalate t j y ys (fun z hz => h z (List.mem_cons_of_mem x hz))
    have hskip : ∀ r, skipWs ([0x2c].intercalate ((y :: ys).map t) ++ r) =
        [0x2c].intercalate ((y :: ys).map t) ++ r := by
      intro r
      rw [List.map_cons, intercalate_cons_eq, List.append_assoc, hy.skipWs_append]
    rw [List.map_cons, List.map_cons, List.intercalate_cons_cons, ← List.map_cons] at hn ⊢
    simp only [List.length_append, List.length_singleton] at hn
    obtain ⟨m, rfl⟩ : ∃ m, n = m + 1 := ⟨n - 1, by omega⟩
    have hpos := hx.length_pos
    rw [List.append_assoc, List.append_assoc, List.singleton_append]
    refine items_cons (hx.reads m _ (by omega) (closes_comma _)) ?_
    rw [hskip]
    exact htail m rest (by simp only [List.length_append, List.length_singleton]; omega)

/-- **An array text:** the opening bracket, texts that read as values separated by commas, and the
closing bracket. -/
theorem readsAs_arr (t : α → Bytes) (j : α → Json) (xs : List α) (h : ∀ x ∈ xs, ReadsAs (t x) (j x)) :
    ReadsAs (0x5b :: ([0x2c].intercalate (xs.map t) ++ [0x5d])) (.arr (xs.map j)) := by
  refine ⟨⟨_, _, rfl, by decide⟩, fun n rest hn _ => ?_⟩
  obtain ⟨m, rfl⟩ : ∃ m, n = m + 1 := ⟨n - 1, by simp at hn; omega⟩
  rw [List.cons_append, value_bracket, List.append_assoc, List.singleton_append]
  cases xs with
  | nil => simp [skipWs_cons (by decide : isBlank 0x5d = false)]
  | cons x xs =>
    have hx := h x (by simp)
    obtain ⟨b, r, htx, -, hb, -⟩ := hx.head_ne_closing
    have hitems := items_intercalate t j x xs h m rest (by simp only [List.length_cons] at hn; omega)
    -- The first item starts with its own first byte, which is neither blank nor a closing bracket.
    have hhead : [0x2c].intercalate ((x :: xs).map t) ++ 0x5d :: rest = b :: (r ++
        (([0x2c].intercalate ((x :: xs).map t)).drop (t x).length ++ 0x5d :: rest)) := by
      rw [List.map_cons, intercalate_cons_eq, htx]
      simp
    have hskip : skipWs ([0x2c].intercalate ((x :: xs).map t) ++ 0x5d :: rest) =
        [0x2c].intercalate ((x :: xs).map t) ++ 0x5d :: rest := by
      rw [List.map_cons, intercalate_cons_eq, List.append_assoc, hx.skipWs_append]
    rw [hskip, hhead]
    split
    · next heq => exact absurd (List.cons.inj heq).1 hb
    · rw [← hhead, hitems]
      rfl

/-- **A text that reads as a key:** a string literal, read as `k` whatever follows it. -/
structure ReadsAsKey (kt : Bytes) (k : String) : Prop where
  quoted : ∃ r, kt = 0x22 :: r
  reads : ∀ rest, string (kt ++ rest) = some (k, rest)

theorem ReadsAsKey.length_pos {kt : Bytes} {k : String} (h : ReadsAsKey kt k) : 0 < kt.length := by
  obtain ⟨r, rfl⟩ := h.quoted
  simp

/-- **The members of an object** (key texts, colons and value texts, separated by commas, then the
closing brace) read as the list of their keys and values, given fuel for their length. -/
theorem members_intercalate (kt vt : α → Bytes) (k : α → String) (j : α → Json) :
    ∀ (x : α) (xs : List α), (∀ y ∈ x :: xs, ReadsAsKey (kt y) (k y) ∧ ReadsAs (vt y) (j y)) →
    ∀ n rest, ([0x2c].intercalate ((x :: xs).map fun y => kt y ++ 0x3a :: vt y) ++ [0x7d]).length ≤ n →
    members n ([0x2c].intercalate ((x :: xs).map fun y => kt y ++ 0x3a :: vt y) ++ 0x7d :: rest) =
      some ((x :: xs).map fun y => (k y, j y), rest)
  | x, [], h, n, rest, hn => by
    obtain ⟨hk, hv⟩ := h x (by simp)
    simp only [List.map_cons, List.map_nil, List.intercalate_singleton, List.length_append,
      List.length_cons] at hn ⊢
    obtain ⟨m, rfl⟩ : ∃ m, n = m + 1 := ⟨n - 1, by omega⟩
    have hpos := hk.length_pos
    rw [List.append_assoc, List.cons_append]
    refine members_last (hk.reads _) ?_
    rw [hv.skipWs_append]
    exact hv.reads m _ (by omega) (closes_brace rest)
  | x, y :: ys, h, n, rest, hn => by
    obtain ⟨hk, hv⟩ := h x (by simp)
    obtain ⟨hky, -⟩ := h y (by simp)
    -- The members after the first comma, with the closing brace: the same shape, one member fewer.
    have htail := members_intercalate kt vt k j y ys (fun z hz => h z (List.mem_cons_of_mem x hz))
    have hskip : ∀ r, skipWs ([0x2c].intercalate ((y :: ys).map fun y => kt y ++ 0x3a :: vt y) ++ r) =
        [0x2c].intercalate ((y :: ys).map fun y => kt y ++ 0x3a :: vt y) ++ r := by
      intro r
      obtain ⟨q, hq⟩ := hky.quoted
      rw [List.map_cons, intercalate_cons_eq, hq]
      exact skipWs_cons (by decide) _
    simp only [List.map_cons] at htail hskip
    rw [List.map_cons, List.map_cons, List.intercalate_cons_cons] at hn ⊢
    simp only [List.length_append, List.length_cons, List.length_nil] at hn
    obtain ⟨m, rfl⟩ : ∃ m, n = m + 1 := ⟨n - 1, by omega⟩
    have hpos := hk.length_pos
    simp only [List.append_assoc, List.cons_append]
    have hval : value m (skipWs (vt x ++ 0x2c :: ([0x2c].intercalate ((kt y ++ 0x3a :: vt y) ::
        ys.map fun y => kt y ++ 0x3a :: vt y) ++ 0x7d :: rest))) =
        some (j x, 0x2c :: ([0x2c].intercalate ((kt y ++ 0x3a :: vt y) ::
          ys.map fun y => kt y ++ 0x3a :: vt y) ++ 0x7d :: rest)) := by
      rw [hv.skipWs_append]
      exact hv.reads m _ (by omega) (closes_comma _)
    refine members_cons (hk.reads _) hval ?_
    rw [hskip]
    exact htail m rest (by simp only [List.length_append, List.length_singleton]; omega)

/-- **An object text:** the opening brace, members (a key text, a colon and a value text) separated
by commas, and the closing brace. -/
theorem readsAs_obj (kt vt : α → Bytes) (k : α → String) (j : α → Json) (xs : List α)
    (h : ∀ x ∈ xs, ReadsAsKey (kt x) (k x) ∧ ReadsAs (vt x) (j x)) :
    ReadsAs (0x7b :: ([0x2c].intercalate (xs.map fun x => kt x ++ 0x3a :: vt x) ++ [0x7d]))
      (.obj (xs.map fun x => (k x, j x))) := by
  refine ⟨⟨_, _, rfl, by decide⟩, fun n rest hn _ => ?_⟩
  obtain ⟨m, rfl⟩ : ∃ m, n = m + 1 := ⟨n - 1, by simp at hn; omega⟩
  rw [List.cons_append, value_brace, List.append_assoc, List.singleton_append]
  cases xs with
  | nil => simp [skipWs_cons (by decide : isBlank 0x7d = false)]
  | cons x xs =>
    obtain ⟨hk, -⟩ := h x (by simp)
    obtain ⟨q, hq⟩ := hk.quoted
    have hmembers := members_intercalate kt vt k j x xs h m rest
      (by simp only [List.length_cons] at hn; omega)
    -- The first member starts with the quote of its key.
    have hhead : [0x2c].intercalate ((x :: xs).map fun x => kt x ++ 0x3a :: vt x) ++ 0x7d :: rest =
        0x22 :: (q ++ 0x3a :: vt x ++ (([0x2c].intercalate ((x :: xs).map fun x => kt x ++ 0x3a :: vt x)).drop
          (kt x ++ 0x3a :: vt x).length ++ 0x7d :: rest)) := by
      rw [List.map_cons, intercalate_cons_eq, hq]
      simp
    rw [hhead, skipWs_cons (by decide)]
    split
    · next heq => exact absurd (List.cons.inj heq).1 (by decide)
    · rw [← hhead, hmembers]
      rfl

end Containers

end Json

end JsonLine
