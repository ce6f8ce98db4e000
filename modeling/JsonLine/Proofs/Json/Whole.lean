/-
# A text that is one JSON value

The grammar's reader (`Json.value`) stops where a value ends, and what comes after does not change
what it read, as long as it cannot continue the value: after a number, blank space or closing
punctuation; after anything else, anything at all (`Json.reads_append`).  More fuel never changes
what it read either (`Json.reads_succ`).  Both are proved for the three readers together, by
induction on the fuel, one case for each way a value may start.

A payload hands the encoder a JSON text, which the encoder writes as it is.  `Json.read?` is the
value such a text is when the reader takes the whole of it, with no blank space around it.  Then the
text reads as that value wherever a line puts it (`Json.readsAs_of_read?`), and a text that reads as
a value is taken whole (`Json.read?_of_readsAs`).
-/
import JsonLine.Proofs.Json.Grammar

namespace JsonLine

namespace Json

open Lexical (isBlank isDigit)

/-! ## 1. What may follow a value -/

/-- **What may follow a value the reader read to its end:** nothing, blank space, or closing
punctuation. -/
def Ends (rest : Bytes) : Prop := ∀ b ∈ rest.head?, isBlank b = true ∨ b = 0x2c ∨ b = 0x5d ∨ b = 0x7d

/-- Nothing that may follow a value continues a number. -/
theorem not_number_of_ends {b : UInt8} (hb : isBlank b = true ∨ b = 0x2c ∨ b = 0x5d ∨ b = 0x7d) :
    isDigit b = false ∧ b ≠ 0x2e ∧ b ≠ 0x65 ∧ b ≠ 0x45 ∧ b ≠ 0x2d ∧ b ≠ 0x2b := by
  rcases hb with hb | rfl | rfl | rfl
  · simp only [isBlank, Bool.or_eq_true, beq_iff_eq] at hb
    rcases hb with ((rfl | rfl) | rfl) | rfl <;> decide
  all_goals decide

theorem Closes.ends {rest : Bytes} (h : Closes rest) : Ends rest := fun b hb => .inr (h b hb)

theorem skipWs_append {r : Bytes} (h : skipWs r ≠ []) (rest : Bytes) :
    skipWs (r ++ rest) = skipWs r ++ rest := by
  induction r with
  | nil => exact absurd rfl h
  | cons c r ih =>
    by_cases hc : isBlank c = true
    · simp only [skipWs, List.cons_append, List.dropWhile_cons, hc, if_true] at h ⊢
      exact ih h
    · simp only [Bool.not_eq_true] at hc
      rw [List.cons_append, skipWs_cons hc, skipWs_cons hc]
      rfl

/-- A rest whose blank space ends in a comma or a closing bracket or brace may follow a value. -/
theorem ends_of_skipWs {r r' : Bytes} {b : UInt8} (h : skipWs r = b :: r')
    (hb : b = 0x2c ∨ b = 0x5d ∨ b = 0x7d) (rest : Bytes) : Ends (r ++ rest) := by
  cases r with
  | nil => cases h
  | cons c r =>
    intro x hx
    simp only [List.cons_append, List.head?_cons, Option.mem_def, Option.some.injEq] at hx
    subst hx
    by_cases hc : isBlank c = true
    · exact .inl hc
    · rw [skipWs_cons (by simpa using hc)] at h
      obtain ⟨hcb, -⟩ := List.cons.inj h
      exact .inr (hcb ▸ hb)

/-! ## 2. Numbers

Each stage of a number reads the same from a longer text when it stopped inside the text it was
given, or when what is added cannot continue it. -/

theorem digitRun_extend (s rest : Bytes) (h : (digitRun s).2 ≠ [] ∨ Ends rest) :
    digitRun (s ++ rest) = ((digitRun s).1, (digitRun s).2 ++ rest) := by
  induction s with
  | nil =>
    have hrest : Ends rest := h.resolve_left (by simp [digitRun])
    cases rest with
    | nil => rfl
    | cons b r => simp [digitRun, (not_number_of_ends (hrest b rfl)).1]
  | cons c s ih =>
    by_cases hc : isDigit c = true
    · have ih' := ih (by simpa [digitRun, hc] using h)
      simp only [digitRun, Prod.mk.injEq] at ih' ⊢
      simp [hc, ih'.1, ih'.2]
    · simp [digitRun, hc]

/-- A number stage's rest is not empty, or what is added cannot continue the number. -/
abbrev Stops (r rest : Bytes) : Prop := r ≠ [] ∨ Ends rest

theorem intPart_append {s ds r rest : Bytes} (h : intPart s = some (ds, r)) (hr : Stops r rest) :
    intPart (s ++ rest) = some (ds, r ++ rest) := by
  have hrun : digitRun s = (ds, r) := by
    unfold intPart at h
    split at h <;> simp_all
  rw [intPart, digitRun_extend s rest (by rw [hrun]; exact hr), hrun]
  rw [intPart, hrun] at h
  split at h <;> split <;> simp_all

theorem fracPart_append {s fp r rest : Bytes} (h : fracPart s = some (fp, r)) (hr : Stops r rest) :
    fracPart (s ++ rest) = some (fp, r ++ rest) := by
  by_cases hp : ∃ s', s = 0x2e :: s'
  · obtain ⟨s', rfl⟩ := hp
    have hrun : digitRun s' = (fp, r) := by
      simp only [fracPart] at h
      split at h <;> simp_all
    simp only [fracPart, List.cons_append] at h ⊢
    rw [digitRun_extend s' rest (by rw [hrun]; exact hr), hrun]
    rw [hrun] at h
    split at h <;> split <;> simp_all
  · -- no point: the fraction is empty and nothing is taken
    have hnone : ∀ t : Bytes, (∀ t', t ≠ 0x2e :: t') → fracPart t = some ([], t) := by
      intro t ht
      cases t with
      | nil => rfl
      | cons c t' =>
        rw [fracPart.eq_2]
        intro t'' heq
        exact ht t'' heq
    rw [hnone s (fun t' heq => hp ⟨t', heq⟩)] at h
    obtain ⟨rfl, rfl⟩ := Prod.mk.inj (Option.some.inj h)
    apply hnone
    intro t' heq
    cases s with
    | cons c s' =>
      simp only [List.cons_append, List.cons.injEq] at heq
      exact hp ⟨s', by rw [heq.1]⟩
    | nil =>
      have hrest : Ends rest := hr.resolve_left (by simp)
      cases rest with
      | nil => cases heq
      | cons b r' =>
        simp only [List.nil_append, List.cons.injEq] at heq
        exact (not_number_of_ends (hrest b rfl)).2.1 heq.1

theorem expSign_append {s : Bytes} (hs : s ≠ []) (rest : Bytes) :
    expSign (s ++ rest) = ((expSign s).1, (expSign s).2 ++ rest) := by
  obtain ⟨c, s', rfl⟩ := List.exists_cons_of_ne_nil hs
  by_cases h1 : c = 0x2d
  · subst h1; rfl
  by_cases h2 : c = 0x2b
  · subst h2; rfl
  rw [List.cons_append, expSign.eq_3 _ (by simpa using h1) (by simpa using h2),
    expSign.eq_3 _ (by simpa using h1) (by simpa using h2)]
  rfl

theorem expPart_append {s r rest : Bytes} {e : Int} (h : expPart s = some (e, r)) (hr : Stops r rest) :
    expPart (s ++ rest) = some (e, r ++ rest) := by
  cases s with
  | cons m s' =>
    by_cases hm : m = 0x65 ∨ m = 0x45
    · have hs' : s' ≠ [] := by
        rintro rfl
        simp [expPart, hm, expSign, digitRun] at h
      have hrun : digitRun (expSign s').2 = ((digitRun (expSign s').2).1, r) := by
        simp only [expPart, hm, if_true] at h
        split at h <;> simp_all
      simp only [expPart, hm, if_true, List.cons_append] at h ⊢
      rw [expSign_append hs', digitRun_extend _ rest (by rw [hrun]; exact hr)]
      split at h <;> split <;> simp_all
    · simp only [expPart, hm, if_false, Option.some.injEq, Prod.mk.injEq] at h
      obtain ⟨rfl, rfl⟩ := h
      simp [expPart, hm]
  | nil =>
    simp only [expPart, Option.some.injEq, Prod.mk.injEq] at h
    obtain ⟨rfl, rfl⟩ := h
    have hrest : Ends rest := hr.resolve_left (by simp)
    cases rest with
    | nil => rfl
    | cons b r' =>
      have hb := not_number_of_ends (hrest b rfl)
      simp [expPart, hb.2.2.1, hb.2.2.2.1]

theorem minus_append {s : Bytes} (hs : s ≠ []) (rest : Bytes) :
    minus (s ++ rest) = ((minus s).1, (minus s).2 ++ rest) := by
  obtain ⟨c, s', rfl⟩ := List.exists_cons_of_ne_nil hs
  by_cases h1 : c = 0x2d
  · subst h1; rfl
  rw [List.cons_append, minus.eq_2 _ (by simpa using h1), minus.eq_2 _ (by simpa using h1)]
  rfl

theorem number_append {s rest r : Bytes} {q : ℚ} (h : number s = some (q, r)) (hr : Ends (r ++ rest)) :
    number (s ++ rest) = some (q, r ++ rest) := by
  have hs : s ≠ [] := by
    rintro rfl
    simp [number, minus, intPart, digitRun] at h
  simp only [number, Option.bind_eq_bind, Option.bind_eq_some_iff] at h
  obtain ⟨⟨ip, r1⟩, hi, ⟨fp, r2⟩, hf, ⟨e, r3⟩, he, hq⟩ := h
  simp only at hf he
  simp only [pure, Option.some.injEq, Prod.mk.injEq] at hq
  obtain ⟨rfl, rfl⟩ := hq
  -- a stage that leaves nothing leaves nothing for the next one
  have h3 : Stops r3 rest := by
    cases r3 with
    | nil => exact .inr (by simpa using hr)
    | cons b r => exact .inl (List.cons_ne_nil b r)
  have h2 : Stops r2 rest := by
    rcases h3 with h3 | h3
    · refine .inl ?_
      rintro rfl
      simp only [expPart, Option.some.injEq, Prod.mk.injEq] at he
      exact h3 he.2.symm
    · exact .inr h3
  have h1 : Stops r1 rest := by
    rcases h2 with h2 | h2
    · refine .inl ?_
      rintro rfl
      simp only [fracPart, Option.some.injEq, Prod.mk.injEq] at hf
      exact h2 hf.2.symm
    · exact .inr h2
  simp only [number, minus_append hs, intPart_append hi h1, Option.bind_eq_bind, Option.bind_some,
    fracPart_append hf h2, expPart_append he h3]
  rfl

/-- A number starts with a minus sign or a digit. -/
theorem number_head {s : Bytes} {x : ℚ × Bytes} (h : number s = some x) :
    ∃ b t, s = b :: t ∧ (b = 0x2d ∨ isDigit b = true) := by
  simp only [number, Option.bind_eq_bind, Option.bind_eq_some_iff] at h
  obtain ⟨⟨ip, r1⟩, hi, -⟩ := h
  -- the integer part has a digit
  have hd : ∃ d t, (minus s).2 = d :: t ∧ isDigit d = true := by
    unfold intPart at hi
    cases ht : (minus s).2 with
    | nil => simp [ht, digitRun] at hi
    | cons d t =>
      by_cases hd : isDigit d = true
      · exact ⟨d, t, rfl, hd⟩
      · simp [ht, digitRun, hd] at hi
  obtain ⟨d, t, ht, hd⟩ := hd
  cases s with
  | nil => cases ht
  | cons b s' =>
    by_cases hb : b = 0x2d
    · exact ⟨b, s', rfl, .inl hb⟩
    · rw [minus.eq_2 _ (by simpa using hb)] at ht
      obtain ⟨hbd, -⟩ := List.cons.inj ht
      exact ⟨b, s', rfl, .inr (hbd ▸ hd)⟩

/-! ## 3. Strings -/

theorem prepend_eq_some {p : Bytes} {o : Option (Bytes × Bytes)} {bs r : Bytes}
    (h : prepend p o = some (bs, r)) : ∃ bs', o = some (bs', r) ∧ bs = p ++ bs' := by
  cases o with
  | none => cases h
  | some x =>
    obtain ⟨bs', r'⟩ := x
    simp only [prepend, Option.map_some, Option.some.injEq, Prod.mk.injEq] at h
    exact ⟨bs', by rw [h.2], h.1.symm⟩

theorem stringBody_append (s rest : Bytes) {bs r : Bytes} (h : stringBody s = some (bs, r)) :
    stringBody (s ++ rest) = some (bs, r ++ rest) := by
  fun_induction stringBody s generalizing bs r
  case case2 r₀ =>
    obtain ⟨rfl, rfl⟩ := Prod.mk.inj (Option.some.inj h)
    rw [List.cons_append, stringBody.eq_2]
  case case4 a b c d n hn hlead a' b' c' d' r' n' hn' htrail ih =>
    obtain ⟨bs', hb, hbs⟩ := prepend_eq_some h
    simp only [List.cons_append]
    rw [stringBody.eq_3, hn]
    simp only [if_pos hlead, hn', if_pos htrail, ih hb, prepend, Option.map_some, hbs]
  case case9 a b c d r₀ n hn hlead htrail ih =>
    obtain ⟨bs', hb, hbs⟩ := prepend_eq_some h
    simp only [List.cons_append]
    rw [stringBody.eq_3, hn]
    simp only [if_neg hlead, if_neg htrail, ih hb, prepend, Option.map_some, hbs]
  case case10 e r₀ hnu x hx ih =>
    obtain ⟨bs', hb, rfl⟩ := prepend_eq_some h
    -- a one-letter escape is never `u`, so the longer arm does not apply after more bytes either
    have he : e ≠ 0x75 := by
      rintro rfl
      cases hx
    rw [List.cons_append, List.cons_append, stringBody.eq_4 _ _ (fun _ _ _ _ _ h _ => he h), hx]
    simp only [ih hb, prepend, Option.map_some]
  case case13 x r₀ hq hu he hx ih =>
    obtain ⟨bs', hb, rfl⟩ := prepend_eq_some h
    have hx' : x ≠ 0x5c := fun h => hx (.inr h)
    rw [List.cons_append, stringBody.eq_5 _ _ hq (fun _ _ _ _ _ h _ => hx' h) (fun _ _ h _ => hx' h),
      if_neg hx]
    simp only [ih hb, prepend, Option.map_some]
  all_goals cases h

theorem string_append {s rest : Bytes} {k : String} {r : Bytes} (h : string s = some (k, r)) :
    string (s ++ rest) = some (k, r ++ rest) := by
  cases s with
  | nil => cases h
  | cons c s' =>
    by_cases hc : c = 0x22
    · subst hc
      simp only [string, Option.bind_eq_bind, Option.bind_eq_some_iff] at h
      obtain ⟨⟨bs, r'⟩, hb, t, ht, hk⟩ := h
      simp only [pure, Option.some.injEq, Prod.mk.injEq] at hk ht
      obtain ⟨rfl, rfl⟩ := hk
      simp only [List.cons_append, string, Option.bind_eq_bind, stringBody_append s' rest hb,
        Option.bind_some, ht]
      rfl
    · rw [string.eq_2 _ (fun _ h => hc (List.cons.inj h).1)] at h
      cases h

/-! ## 4. Values -/

theorem value_nil (n : Nat) : value n [] = none := by
  cases n with
  | zero => rfl
  | succ m => simp [value, number, minus, intPart, digitRun]

theorem items_nil (n : Nat) : items n [] = none := by
  cases n with
  | zero => rfl
  | succ m => simp [items, value_nil]

theorem members_nil (n : Nat) : members n [] = none := by
  cases n with
  | zero => rfl
  | succ m => simp [members, string]

theorem value_quote (m : Nat) (t : Bytes) :
    value (m + 1) (0x22 :: t) = (string (0x22 :: t)).map fun x => (.str x.1, x.2) := rfl

/-- No value starts with blank space. -/
theorem value_blank {b : UInt8} (hb : isBlank b = true) (n : Nat) (r : Bytes) : value n (b :: r) = none := by
  rcases n with _ | m
  · rfl
  · simp only [isBlank, Bool.or_eq_true, beq_iff_eq] at hb
    rcases hb with ((rfl | rfl) | rfl) | rfl <;> simp [value, number, minus, intPart, digitRun, isDigit]

/-! ### Arrays and objects

An array and an object are read alike: after the opening byte and its blank space comes the closing
byte of an empty one, or the inner reader (`opened`); after each item or member comes a comma and
more, or the closing byte (`continued`).  That what follows carries over, and that more fuel reads
the same, is proved once for both shapes. -/

/-- **After the opening byte of an array or object:** blank space, then the closing byte of an
empty one, or the inner reader, whose result is wrapped. -/
def opened {α : Type} (close : UInt8) (empty : Json) (wrap : α → Json)
    (inner : Bytes → Option (α × Bytes)) (r : Bytes) : Option (Json × Bytes) :=
  match skipWs r with
  | c :: r' => if c = close then some (empty, r') else (inner (c :: r')).map fun x => (wrap x.1, x.2)
  | [] => (inner []).map fun x => (wrap x.1, x.2)

/-- **After an item or member `x`:** blank space, then a comma and more, or the closing byte. -/
def continued {α : Type} (close : UInt8) (more : Bytes → Option (List α × Bytes)) (x : α)
    (r : Bytes) : Option (List α × Bytes) :=
  match skipWs r with
  | c :: r' =>
    if c = 0x2c then (more (skipWs r')).map fun y => (x :: y.1, y.2)
    else if c = close then some ([x], r') else none
  | [] => none

/-- The rest after a colon, if the text starts with one. -/
def colon? : Bytes → Option Bytes
  | 0x3a :: r => some r
  | _ => none

theorem colon?_append {l r : Bytes} (h : colon? l = some r) (rest : Bytes) :
    colon? (l ++ rest) = some (r ++ rest) := by
  unfold colon? at h
  split at h
  · cases h
    rfl
  · cases h

/-- An array is read as `opened` with the closing bracket and the items. -/
theorem value_bracket_opened (m : Nat) (r : Bytes) :
    value (m + 1) (0x5b :: r) = opened 0x5d (.arr []) .arr (items m) r := by
  rw [value_bracket, opened]
  cases skipWs r with
  | nil => rfl
  | cons c r' =>
    dsimp only
    split
    · next r'' heq =>
      obtain ⟨rfl, rfl⟩ := List.cons.inj heq
      rw [if_pos rfl]
    · next hne => rw [if_neg fun hc => hne r' (by rw [hc])]

/-- An object is read as `opened` with the closing brace and the members. -/
theorem value_brace_opened (m : Nat) (r : Bytes) :
    value (m + 1) (0x7b :: r) = opened 0x7d (.obj []) .obj (members m) r := by
  rw [value_brace, opened]
  cases skipWs r with
  | nil => rfl
  | cons c r' =>
    dsimp only
    split
    · next r'' heq =>
      obtain ⟨rfl, rfl⟩ := List.cons.inj heq
      rw [if_pos rfl]
    · next hne => rw [if_neg fun hc => hne r' (by rw [hc])]

/-- Items are a value, then `continued` with the closing bracket. -/
theorem items_succ (n : Nat) (s : Bytes) :
    items (n + 1) s = (value n s).bind fun x => continued 0x5d (items n) x.1 x.2 := by
  rw [items.eq_2]
  simp only [Option.bind_eq_bind]
  congr 1
  funext x
  unfold continued
  cases skipWs x.2 with
  | nil => rfl
  | cons c r =>
    dsimp only
    split
    · next r' heq =>
      obtain ⟨rfl, rfl⟩ := List.cons.inj heq
      rw [if_pos rfl]
      cases items n (skipWs r) <;> rfl
    · next r' heq =>
      obtain ⟨rfl, rfl⟩ := List.cons.inj heq
      rw [if_neg (by decide), if_pos rfl]
      rfl
    · next h1 h2 =>
      rw [if_neg fun hc => h1 r (by rw [hc]), if_neg fun hc => h2 r (by rw [hc])]

/-- Members are a key, a colon and a value, then `continued` with the closing brace. -/
theorem members_succ (n : Nat) (s : Bytes) :
    members (n + 1) s = (string s).bind fun x => (colon? (skipWs x.2)).bind fun r =>
      (value n (skipWs r)).bind fun y => continued 0x7d (members n) (x.1, y.1) y.2 := by
  rw [members.eq_2]
  simp only [Option.bind_eq_bind]
  congr 1
  funext x
  cases skipWs x.2 with
  | nil => rfl
  | cons c r =>
    split
    · next r' heq =>
      obtain ⟨rfl, rfl⟩ := List.cons.inj heq
      simp only [colon?, Option.bind_some]
      congr 1
      funext y
      unfold continued
      cases skipWs y.2 with
      | nil => rfl
      | cons c r =>
        dsimp only
        split
        · next r' heq =>
          obtain ⟨rfl, rfl⟩ := List.cons.inj heq
          rw [if_pos rfl]
          cases members n (skipWs r) <;> rfl
        · next r' heq =>
          obtain ⟨rfl, rfl⟩ := List.cons.inj heq
          rw [if_neg (by decide), if_pos rfl]
          rfl
        · next h1 h2 =>
          rw [if_neg fun hc => h1 r (by rw [hc]), if_neg fun hc => h2 r (by rw [hc])]
    · next hne =>
      have : colon? (c :: r) = none := by
        unfold colon?
        split
        · next r' heq => exact absurd heq (hne r')
        · rfl
      rw [this]
      rfl

section Shapes

variable {α : Type}

/-- What follows carries over an opening, when it carries over the inner reader. -/
theorem opened_append {close : UInt8} {empty : Json} {wrap : α → Json} {inner : Bytes → Option (α × Bytes)}
    (hinner : ∀ {s rest y r}, inner s = some (y, r) → inner (s ++ rest) = some (y, r ++ rest))
    (hnil : inner [] = none) {r rest r' : Bytes} {j : Json}
    (h : opened close empty wrap inner r = some (j, r')) :
    opened close empty wrap inner (r ++ rest) = some (j, r' ++ rest) := by
  unfold opened at h ⊢
  cases hs : skipWs r with
  | nil => rw [hs, hnil] at h; cases h
  | cons c r0 =>
    rw [hs] at h
    rw [skipWs_append (by simp [hs]), hs, List.cons_append]
    dsimp only at h ⊢
    by_cases hc : c = close
    · rw [if_pos hc] at h ⊢
      obtain ⟨rfl, rfl⟩ := Prod.mk.inj (Option.some.inj h)
      rfl
    · rw [if_neg hc] at h ⊢
      obtain ⟨⟨y, r1⟩, hy, hx⟩ := Option.map_eq_some_iff.mp h
      obtain ⟨rfl, rfl⟩ := Prod.mk.inj hx
      rw [← List.cons_append, hinner hy]
      rfl

/-- An opening reads the same with an inner reader that reads the same. -/
theorem opened_mono {close : UInt8} {empty : Json} {wrap : α → Json} {inner inner' : Bytes → Option (α × Bytes)}
    (hinner : ∀ {s y}, inner s = some y → inner' s = some y) {r : Bytes} {x : Json × Bytes}
    (h : opened close empty wrap inner r = some x) : opened close empty wrap inner' r = some x := by
  unfold opened at h ⊢
  split at h
  · split at h
    · rw [if_pos ‹_›]
      exact h
    · obtain ⟨y, hy, rfl⟩ := Option.map_eq_some_iff.mp h
      rw [if_neg ‹_›, hinner hy]
      rfl
  · obtain ⟨y, hy, rfl⟩ := Option.map_eq_some_iff.mp h
    rw [hinner hy]
    rfl

/-- After an item or member comes a comma or a closing byte, which may follow a value. -/
theorem continued_ends {close : UInt8} (hclose : close = 0x5d ∨ close = 0x7d)
    {more : Bytes → Option (List α × Bytes)} {x : α} {r : Bytes} {y : List α × Bytes}
    (h : continued close more x r = some y) (rest : Bytes) : Ends (r ++ rest) := by
  unfold continued at h
  cases hs : skipWs r with
  | nil => rw [hs] at h; cases h
  | cons c r0 =>
    rw [hs] at h
    dsimp only at h
    refine ends_of_skipWs hs ?_ rest
    by_cases h1 : c = 0x2c
    · exact .inl h1
    · rw [if_neg h1] at h
      by_cases h2 : c = close
      · exact .inr (h2 ▸ hclose)
      · rw [if_neg h2] at h
        cases h

/-- What follows carries over a continuation, when it carries over the reader of the rest. -/
theorem continued_append {close : UInt8} {more : Bytes → Option (List α × Bytes)}
    (hmore : ∀ {s rest ys r}, more s = some (ys, r) → more (s ++ rest) = some (ys, r ++ rest))
    (hnil : more [] = none) {x : α} {r rest r' : Bytes} {xs : List α}
    (h : continued close more x r = some (xs, r')) :
    continued close more x (r ++ rest) = some (xs, r' ++ rest) := by
  unfold continued at h ⊢
  cases hs : skipWs r with
  | nil => rw [hs] at h; cases h
  | cons c r0 =>
    rw [hs] at h
    rw [skipWs_append (by simp [hs]), hs, List.cons_append]
    dsimp only at h ⊢
    by_cases h1 : c = 0x2c
    · rw [if_pos h1] at h ⊢
      obtain ⟨⟨ys, r1⟩, hy, hx⟩ := Option.map_eq_some_iff.mp h
      obtain ⟨rfl, rfl⟩ := Prod.mk.inj hx
      have hne : skipWs r0 ≠ [] := fun he => by rw [he, hnil] at hy; cases hy
      rw [skipWs_append hne, hmore hy]
      rfl
    · rw [if_neg h1] at h ⊢
      by_cases h2 : c = close
      · rw [if_pos h2] at h ⊢
        obtain ⟨rfl, rfl⟩ := Prod.mk.inj (Option.some.inj h)
        rfl
      · rw [if_neg h2] at h
        cases h

/-- A continuation reads the same with a reader of the rest that reads the same. -/
theorem continued_mono {close : UInt8} {more more' : Bytes → Option (List α × Bytes)}
    (hmore : ∀ {s y}, more s = some y → more' s = some y) {x : α} {r : Bytes} {y : List α × Bytes}
    (h : continued close more x r = some y) : continued close more' x r = some y := by
  unfold continued at h ⊢
  split at h
  · split at h
    · obtain ⟨z, hz, rfl⟩ := Option.map_eq_some_iff.mp h
      rw [if_pos ‹_›, hmore hz]
      rfl
    · rw [if_neg ‹_›]
      exact h
  · cases h

end Shapes

/-! ### The three readers -/

/-- **What the reader reads does not depend on what follows,** as long as nothing follows that
could continue a number.  The induction is on the fuel, for the three readers together. -/
theorem reads_append (n : Nat) :
    (∀ {s rest : Bytes} {j : Json} {r : Bytes}, value n s = some (j, r) → Ends (r ++ rest) →
      value n (s ++ rest) = some (j, r ++ rest)) ∧
    (∀ {s rest : Bytes} {js : List Json} {r : Bytes}, items n s = some (js, r) →
      items n (s ++ rest) = some (js, r ++ rest)) ∧
    (∀ {s rest : Bytes} {ms : List (String × Json)} {r : Bytes}, members n s = some (ms, r) →
      members n (s ++ rest) = some (ms, r ++ rest)) := by
  induction n with
  | zero => refine ⟨fun h _ => ?_, fun h => ?_, fun h => ?_⟩ <;> simp [value, items, members] at h
  | succ m ih =>
    obtain ⟨ihv, ihi, ihm⟩ := ih
    refine ⟨fun {s rest j r} h hr => ?_, fun {s rest js r} h => ?_, fun {s rest ms r} h => ?_⟩
    · -- a value: one case for each way it may start
      unfold value at h
      split at h
      · obtain ⟨rfl, rfl⟩ := Prod.mk.inj (Option.some.inj h)
        simp [value]
      · obtain ⟨rfl, rfl⟩ := Prod.mk.inj (Option.some.inj h)
        simp [value]
      · obtain ⟨rfl, rfl⟩ := Prod.mk.inj (Option.some.inj h)
        simp [value]
      · next r' =>
        rw [← value_bracket, value_bracket_opened] at h
        rw [List.cons_append, value_bracket_opened]
        exact opened_append ihi (items_nil m) h
      · next r' =>
        rw [← value_brace, value_brace_opened] at h
        rw [List.cons_append, value_brace_opened]
        exact opened_append ihm (members_nil m) h
      · next t =>
        -- a string
        obtain ⟨⟨k, r0⟩, hk, hx⟩ := Option.map_eq_some_iff.mp h
        obtain ⟨rfl, rfl⟩ := Prod.mk.inj hx
        rw [List.cons_append, value_quote, ← List.cons_append, string_append hk]
        rfl
      · -- a number, which is what `rest` must not continue
        obtain ⟨⟨q, r0⟩, hq, hx⟩ := Option.map_eq_some_iff.mp h
        obtain ⟨rfl, rfl⟩ := Prod.mk.inj hx
        obtain ⟨b, t, rfl, hb⟩ := number_head hq
        rw [List.cons_append, value_of_numberStart hb, ← List.cons_append, number_append hq hr]
        rfl
    · -- the items of an array: a value, then a comma and more items, or the closing bracket
      rw [items_succ] at h ⊢
      obtain ⟨⟨j, r1⟩, hv, hc⟩ := Option.bind_eq_some_iff.mp h
      rw [ihv hv (continued_ends (.inl rfl) hc rest), Option.bind_some]
      exact continued_append ihi (items_nil m) hc
    · -- the members of an object: a key, a colon and a value, then a comma and more members, or the
      -- closing brace
      rw [members_succ] at h ⊢
      obtain ⟨⟨k, r1⟩, hk, h⟩ := Option.bind_eq_some_iff.mp h
      obtain ⟨r2, hcolon, h⟩ := Option.bind_eq_some_iff.mp h
      obtain ⟨⟨j, r3⟩, hv, hc⟩ := Option.bind_eq_some_iff.mp h
      have hne : skipWs r1 ≠ [] := fun he => by rw [he] at hcolon; cases hcolon
      have hne2 : skipWs r2 ≠ [] := fun he => by rw [he, value_nil] at hv; cases hv
      rw [string_append hk, Option.bind_some, skipWs_append hne, colon?_append hcolon, Option.bind_some,
        skipWs_append hne2, ihv hv (continued_ends (.inr rfl) hc rest), Option.bind_some]
      exact continued_append ihm (members_nil m) hc

/-- **More fuel reads the same,** for the three readers together. -/
theorem reads_succ (n : Nat) :
    (∀ {s : Bytes} {x : Json × Bytes}, value n s = some x → value (n + 1) s = some x) ∧
    (∀ {s : Bytes} {x : List Json × Bytes}, items n s = some x → items (n + 1) s = some x) ∧
    (∀ {s : Bytes} {x : List (String × Json) × Bytes}, members n s = some x → members (n + 1) s = some x) := by
  induction n with
  | zero => refine ⟨fun h => ?_, fun h => ?_, fun h => ?_⟩ <;> simp [value, items, members] at h
  | succ m ih =>
    obtain ⟨ihv, ihi, ihm⟩ := ih
    refine ⟨fun {s x} h => ?_, fun {s x} h => ?_, fun {s x} h => ?_⟩
    · unfold value at h
      split at h
      · rw [← h]; rfl
      · rw [← h]; rfl
      · rw [← h]; rfl
      · next r' =>
        rw [← value_bracket, value_bracket_opened] at h
        rw [value_bracket_opened]
        exact opened_mono ihi h
      · next r' =>
        rw [← value_brace, value_brace_opened] at h
        rw [value_brace_opened]
        exact opened_mono ihm h
      · next t => rw [value_quote]; exact h
      · obtain ⟨y, hy, rfl⟩ := Option.map_eq_some_iff.mp h
        obtain ⟨b, t, rfl, hb⟩ := number_head hy
        rw [value_of_numberStart hb, hy]
        rfl
    · rw [items_succ] at h ⊢
      obtain ⟨y, hv, hc⟩ := Option.bind_eq_some_iff.mp h
      rw [ihv hv, Option.bind_some]
      exact continued_mono ihi hc
    · rw [members_succ] at h ⊢
      obtain ⟨y, hk, h⟩ := Option.bind_eq_some_iff.mp h
      obtain ⟨r2, hcolon, h⟩ := Option.bind_eq_some_iff.mp h
      obtain ⟨z, hv, hc⟩ := Option.bind_eq_some_iff.mp h
      rw [hk, Option.bind_some, hcolon, Option.bind_some, ihv hv, Option.bind_some]
      exact continued_mono ihm hc

theorem value_mono {n k : Nat} (hk : n ≤ k) {s : Bytes} {x : Json × Bytes} (h : value n s = some x) :
    value k s = some x := by
  induction hk with
  | refl => exact h
  | step _ ih => exact (reads_succ _).1 ih

/-! ## 5. Whole texts -/

/-- **The value a text is, when the reader takes the whole of it,** with no blank space around it. -/
def read? (t : Bytes) : Option Json :=
  match value t.length t with
  | some (j, []) => some j
  | _ => none

/-- **A text that is one value reads as it wherever it stands:** more fuel, and whatever closing
punctuation follows, read the same. -/
theorem readsAs_of_read? {t : Bytes} {j : Json} (h : read? t = some j) : ReadsAs t j := by
  have hv : value t.length t = some (j, []) := by
    unfold read? at h
    split at h
    · next j' heq =>
      cases h
      exact heq
    · cases h
  refine ⟨?_, fun n rest hn hrest => ?_⟩
  · -- the text starts with a byte that is not blank
    cases t with
    | nil => rw [value_nil] at hv; cases hv
    | cons b r =>
      refine ⟨b, r, rfl, ?_⟩
      cases hb : isBlank b
      · rfl
      · rw [value_blank hb] at hv; cases hv
  · have hread := (reads_append n).1 (value_mono hn hv) (by simpa using hrest.ends)
    simpa using hread

theorem read?_of_readsAs {t : Bytes} {j : Json} (h : ReadsAs t j) : read? t = some j := by
  have hv := h.reads t.length [] (Nat.le_refl _) closes_nil
  rw [List.append_nil] at hv
  simp [read?, hv]

end Json

end JsonLine
