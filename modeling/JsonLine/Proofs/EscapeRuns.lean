/-
# The escaper's pieces

The escaper walks a byte string once, keeping the raw run it has met since its last piece.  At a
byte that needs escaping it hands out that run, unless it is empty, and then the byte's escape; at
the end it hands out the run that is left (`Text.Escape.pieces`).  The line receives each piece as
one write.  This file shows that the pieces are exactly what they should be.

* Joined, they are the per-byte reference `b.flatMap escByte` (`Text.Escape.flatten_pieces`).
* They *cut* the input (`Text.Escape.Cut`): each piece is one maximal run of bytes that pass
  through, as it is, or the escape of one byte that does not.  So no piece is empty and no two raw
  runs stand next to each other; and a byte string has no other such cut, so the cut determines the
  pieces (`Text.Escape.cut_iff`).
* A byte needs escaping exactly when its escape is not the byte itself, so escaping leaves a byte
  string as it is exactly when no byte needs escaping.  That is when `escapeBytes` hands back its
  input; otherwise it hands back the joined pieces, which are then the escape.
* Escaping done whole or in parts is the same, so a plain text escaped piece by piece, as the display
  writers do, is the escape of the whole text (`Compose.text_writeEscapedDisplay`).

Main statement: `Text.Escape.pieces_cut_maximal_runs`.
-/
import JsonLine.Proofs.Json.Strings
import Mathlib.Data.List.Chain
import Mathlib.Data.List.TakeWhile

namespace JsonLine

namespace Text.Escape

/-! ## 1. One byte -/

/-- **A printable byte stands for itself:** every byte from `0x20` up but the quote and the
backslash, `0x7f` and the bytes from `0x80` up included. -/
theorem escByte_of_printable {x : UInt8} (hlo : 0x20 ≤ x) (hq : x ≠ 0x22) (hb : x ≠ 0x5c) :
    escByte x = [x] :=
  escByte_of_passes (by simp [passes, hlo, hq, hb])

/-- **The seven short escapes:** the quote, the backslash, backspace, form feed, line feed,
carriage return and tab become a backslash and a letter. -/
theorem escByte_short :
    escByte 0x22 = [0x5c, 0x22] ∧ escByte 0x5c = [0x5c, 0x5c] ∧ escByte 0x08 = [0x5c, 0x62] ∧
      escByte 0x0c = [0x5c, 0x66] ∧ escByte 0x0a = [0x5c, 0x6e] ∧ escByte 0x0d = [0x5c, 0x72] ∧
      escByte 0x09 = [0x5c, 0x74] :=
  ⟨rfl, rfl, rfl, rfl, rfl, rfl, rfl⟩

/-- **Every other control byte becomes `\u00` and its two lowercase hexadecimal digits.** -/
theorem escByte_of_control {x : UInt8} (hx : x < 0x20) (h8 : x ≠ 0x08) (h9 : x ≠ 0x09)
    (ha : x ≠ 0x0a) (hc : x ≠ 0x0c) (hd : x ≠ 0x0d) :
    escByte x =
      [0x5c, 0x75, 0x30, 0x30, Bytes.hexDigit (x.toNat / 16), Bytes.hexDigit (x.toNat % 16)] := by
  -- a control byte is neither the quote nor the backslash, so it has no short form
  have hq : x ≠ 0x22 := by
    rintro rfl
    exact absurd hx (by decide)
  have hb : x ≠ 0x5c := by
    rintro rfl
    exact absurd hx (by decide)
  have hpass : passes x = false := by simp [passes, UInt8.not_le.mpr hx]
  have hshort : shortForm? x = none := by simp [shortForm?, hq, hb, h8, h9, ha, hc, hd]
  simp only [escByte, hpass, hshort, Bool.false_eq_true, if_false]

/-- The escape of a byte that does not pass is a backslash and at least one more byte. -/
theorem escByte_of_not_passes {x : UInt8} (h : passes x = false) :
    ∃ t, escByte x = 0x5c :: t ∧ t ≠ [] := by
  unfold escByte
  rw [if_neg (by simp [h])]
  split
  · exact ⟨_, rfl, List.cons_ne_nil _ _⟩
  · exact ⟨_, rfl, List.cons_ne_nil _ _⟩

theorem escByte_ne_nil (x : UInt8) : escByte x ≠ [] := by
  cases hx : passes x
  · obtain ⟨t, ht, -⟩ := escByte_of_not_passes hx
    simp [ht]
  · simp [escByte_of_passes hx]

/-- An escape is never a raw run: its backslash does not pass. -/
theorem all_passes_escByte {x : UInt8} (h : passes x = false) : (escByte x).all passes = false := by
  obtain ⟨t, ht, -⟩ := escByte_of_not_passes h
  rw [ht, List.all_cons]
  rfl

/-- **A byte needs escaping exactly when its escape is not the byte itself.** -/
theorem needsEscape_eq_false_iff (x : UInt8) : needsEscape x = false ↔ escByte x = [x] := by
  constructor
  · intro h
    exact escByte_of_passes (by simpa [needsEscape] using h)
  · intro h
    cases hx : passes x
    · -- a backslash and more is never one byte
      obtain ⟨t, ht, hne⟩ := escByte_of_not_passes hx
      rw [ht] at h
      exact absurd (List.cons.inj h).2 hne
    · simp [needsEscape, hx]

/-! ## 2. Escaping that changes nothing -/

theorem length_le_escape (b : Bytes) : b.length ≤ (escape b).length := by
  induction b with
  | nil => simp
  | cons x b ih =>
    have := List.length_pos_iff.mpr (escByte_ne_nil x)
    simp only [escape_cons, List.length_append, List.length_cons]
    omega

/-- **Escaping leaves a byte string as it is exactly when no byte needs escaping.** -/
theorem escape_eq_self_iff (b : Bytes) : escape b = b ↔ unchanged b = true := by
  refine ⟨fun h => ?_, escape_of_unchanged⟩
  induction b with
  | nil => rfl
  | cons x b ih =>
    rw [escape_cons] at h
    cases hx : passes x
    · -- the escape of `x` alone is longer than `x`, and the rest never gets shorter
      obtain ⟨t, ht, hne⟩ := escByte_of_not_passes hx
      rw [ht, List.cons_append] at h
      have hlen := congrArg List.length (List.cons.inj h).2
      have hrest := length_le_escape b
      have ht := List.length_pos_iff.mpr hne
      simp only [List.length_append] at hlen
      omega
    · rw [escByte_of_passes hx, List.singleton_append] at h
      have hb := ih (List.cons.inj h).2
      simp only [unchanged, List.all_cons, hx, Bool.true_and] at hb ⊢
      exact hb

theorem any_needsEscape (b : Bytes) : b.any needsEscape = !unchanged b := by
  induction b with
  | nil => rfl
  | cons x b ih =>
    simp only [List.any_cons, ih, unchanged, List.all_cons, needsEscape, Bool.not_and]

/-- **`escapeBytes` hands back its input when no byte needs escaping, and the escape otherwise.** -/
theorem escapeBytes_eq (b : Bytes) :
    escapeBytes b = if unchanged b then .borrowed b else .owned (escape b) := by
  rw [escapeBytes, any_needsEscape, flatten_pieces]
  cases unchanged b <;> rfl

/-- Either way, what `escapeBytes` hands back is the escape. -/
theorem escapeBytes_get (b : Bytes) : (escapeBytes b).get = escape b := by
  rw [escapeBytes_eq]
  split
  · next h => exact (escape_of_unchanged h).symm
  · rfl

theorem escapeBytes_isBorrowed (b : Bytes) : (escapeBytes b).isBorrowed = unchanged b := by
  rw [escapeBytes_eq]
  cases unchanged b <;> rfl

/-! ## 3. How the splitter walks

`piecesGo` keeps the run it is gathering reversed.  Bytes that pass are pushed onto it; a byte that
does not closes it and adds its escape after it. -/

theorem toList_closeRun (run : Bytes) (out : Array Bytes) :
    (closeRun run out).toList = out.toList ++ (closeRun run #[]).toList := by
  unfold closeRun
  split <;> simp

/-- The pieces already cut stay in front of whatever comes after them. -/
theorem toList_piecesGo (b run : Bytes) (out : Array Bytes) :
    (piecesGo b run out).toList = out.toList ++ (piecesGo b run #[]).toList := by
  induction b generalizing run out with
  | nil => exact toList_closeRun run out
  | cons x b ih =>
    unfold piecesGo
    split
    · exact ih _ out
    · rw [ih, ih [] ((closeRun run #[]).push (escByte x)), Array.toList_push, Array.toList_push,
        toList_closeRun run out]
      simp

/-- Bytes that pass join the run. -/
theorem piecesGo_passing {r : Bytes} (hr : ∀ y ∈ r, passes y = true) (rest run : Bytes)
    (out : Array Bytes) : piecesGo (r ++ rest) run out = piecesGo rest (r.reverse ++ run) out := by
  induction r generalizing run with
  | nil => rfl
  | cons y r ih =>
    rw [List.cons_append, piecesGo, if_pos (hr y List.mem_cons_self),
      ih (fun z hz => hr z (List.mem_cons_of_mem _ hz))]
    simp

/-- A byte that needs escaping closes the run and adds its escape. -/
theorem piecesGo_escaped {x : UInt8} (hx : passes x = false) (rest run : Bytes) (out : Array Bytes) :
    piecesGo (x :: rest) run out = piecesGo rest [] ((closeRun run out).push (escByte x)) := by
  rw [piecesGo, if_neg (by simp [hx])]

/-- **A byte that needs escaping is a piece of its own.** -/
theorem pieces_escaped {x : UInt8} (hx : passes x = false) (rest : Bytes) :
    pieces (x :: rest) = escByte x :: pieces rest := by
  rw [pieces, piecesGo_escaped hx, toList_piecesGo]
  rfl

/-- **A run of bytes that pass is one piece,** when a byte that does not pass, or the end, follows
it. -/
theorem pieces_run {r rest : Bytes} (hr : r ≠ []) (hpass : ∀ y ∈ r, passes y = true)
    (hmax : ∀ y ∈ rest.head?, passes y = false) : pieces (r ++ rest) = r :: pieces rest := by
  have hclose : closeRun r.reverse #[] = #[r] := by
    simp [closeRun, List.isEmpty_iff, hr]
  rw [pieces, piecesGo_passing hpass, List.append_nil]
  cases rest with
  | nil => rw [piecesGo, hclose]; rfl
  | cons y rest =>
    rw [piecesGo_escaped (hmax y rfl), toList_piecesGo, pieces_escaped (hmax y rfl), pieces, hclose]
    rfl

/-! ## 4. Cuts into runs and escapes -/

/-- **A cut of a byte string into the escaper's pieces:** each piece is the escape of one byte that
does not pass, or a run of bytes that pass, as it is, with no byte that passes right after it. -/
inductive Cut : Bytes → List Bytes → Prop where
  | nil : Cut [] []
  | escaped {x : UInt8} {rest : Bytes} {ps : List Bytes} :
      passes x = false → Cut rest ps → Cut (x :: rest) (escByte x :: ps)
  | run {r rest : Bytes} {ps : List Bytes} :
      r ≠ [] → (∀ y ∈ r, passes y = true) → (∀ y ∈ rest.head?, passes y = false) → Cut rest ps →
      Cut (r ++ rest) (r :: ps)

namespace Cut

variable {b : Bytes} {ps : List Bytes}

/-- **A cut is the escaper's pieces.** -/
theorem eq_pieces (h : Cut b ps) : ps = pieces b := by
  induction h with
  | nil => rfl
  | escaped hx _ ih => rw [pieces_escaped hx, ih]
  | run hr hpass hmax _ ih => rw [pieces_run hr hpass hmax, ih]

/-- No piece of a cut is empty. -/
theorem ne_nil (h : Cut b ps) : ∀ p ∈ ps, p ≠ [] := by
  induction h with
  | nil => simp
  | escaped _ _ ih =>
    intro p hp
    rcases List.mem_cons.mp hp with rfl | hp
    · exact escByte_ne_nil _
    · exact ih p hp
  | run hr _ _ _ ih =>
    intro p hp
    rcases List.mem_cons.mp hp with rfl | hp
    · exact hr
    · exact ih p hp

/-- A cut of bytes that start with one that does not pass starts with an escape. -/
theorem head_not_raw (h : Cut b ps) (hmax : ∀ y ∈ b.head?, passes y = false) :
    ∀ q ∈ ps.head?, q.all passes = false := by
  cases h with
  | nil => simp
  | escaped hx _ =>
    intro q hq
    cases hq
    exact all_passes_escByte hx
  | run hr hpass _ _ =>
    -- a run starts with a byte that passes, which `hmax` rules out
    obtain ⟨y, r', rfl⟩ := List.exists_cons_of_ne_nil hr
    have hy := hmax y (by simp)
    rw [hpass y List.mem_cons_self] at hy
    cases hy

/-- **Two raw runs never stand next to each other.** -/
theorem runs_apart (h : Cut b ps) : ps.IsChain fun p q => ¬ (p.all passes = true ∧ q.all passes = true) := by
  induction h with
  | nil => exact .nil
  | escaped hx _ ih =>
    refine ih.cons fun q _ hboth => ?_
    rw [all_passes_escByte hx] at hboth
    cases hboth.1
  | run _ _ hmax hc ih =>
    refine ih.cons fun q hq hboth => ?_
    rw [hc.head_not_raw hmax q hq] at hboth
    cases hboth.2

end Cut

/-- **The escaper's pieces cut the input.**  The induction is on the length: a run reaches up to
the first byte that does not pass, and what is left is shorter. -/
theorem cut_pieces (b : Bytes) : Cut b (pieces b) := by
  induction hn : b.length using Nat.strong_induction_on generalizing b with
  | _ n ih =>
    match b with
    | [] => exact .nil
    | x :: rest =>
      cases hx : passes x
      · rw [pieces_escaped hx]
        exact .escaped hx (ih rest.length (by simp [← hn]) rest rfl)
      · have hr : (x :: rest).takeWhile passes ≠ [] := by simp [List.takeWhile_cons_of_pos hx]
        have hpass : ∀ y ∈ (x :: rest).takeWhile passes, passes y = true :=
          fun _ hy => List.mem_takeWhile_imp hy
        have hmax : ∀ y ∈ ((x :: rest).dropWhile passes).head?, passes y = false := by
          intro y hy
          have hnot := List.head?_dropWhile_not passes (x :: rest)
          rw [hy] at hnot
          exact hnot
        have hlt : ((x :: rest).dropWhile passes).length < n := by
          rw [List.dropWhile_cons_of_pos hx, ← hn, List.length_cons]
          exact Nat.lt_succ_of_le (List.length_dropWhile_le _ _)
        have hsplit := (List.takeWhile_append_dropWhile (p := passes) (l := x :: rest)).symm
        rw [hsplit, pieces_run hr hpass hmax]
        exact .run hr hpass hmax (ih _ hlt _ rfl)

/-- **The escaper's pieces are the one cut of the input.** -/
theorem cut_iff {b : Bytes} {ps : List Bytes} : Cut b ps ↔ ps = pieces b :=
  ⟨Cut.eq_pieces, fun h => h ▸ cut_pieces b⟩

end Text.Escape

/-! ## 5. Escaping in parts -/

/-- **A plain text escaped piece by piece is the escape of the whole text.** -/
theorem Compose.text_writeEscapedDisplay (v : Value) (d : Delim) :
    Op.text d (Compose.writeEscapedDisplay v) = Text.Escape.escape (Bytes.ofString v.display) := by
  rw [Compose.writeEscapedDisplay, Compose.escapePieces_eq, Op.text_map_put, Compose.flatten_escapePieces]
  rfl

namespace Text.Escape

/-- **The escaper hands out maximal raw runs and single escapes, which join to the per-byte
reference.**  For every byte string `b`: joined, the pieces are each byte's escape in order, where a
printable byte stands for itself, seven bytes have a short escape and every other control byte
becomes `\u00` and two hexadecimal digits.  The pieces are the one cut of `b` into maximal runs of
bytes that pass and escapes of single bytes that do not, so no piece is empty and no two raw runs
are next to each other.  A byte needs escaping exactly when its escape is not itself.  `escapeBytes`
hands back the escape, borrowing its input exactly when no byte needs escaping.  And escaping done
whole or in parts is the same, so a plain text escaped piece by piece, bare or quoted after a
lead-in, is the escape of the whole text. -/
theorem pieces_cut_maximal_runs (b : Bytes) :
    (pieces b).flatten = b.flatMap escByte ∧
      ((∀ x : UInt8, 0x20 ≤ x → x ≠ 0x22 → x ≠ 0x5c → escByte x = [x]) ∧
        (escByte 0x22 = [0x5c, 0x22] ∧ escByte 0x5c = [0x5c, 0x5c] ∧ escByte 0x08 = [0x5c, 0x62] ∧
          escByte 0x0c = [0x5c, 0x66] ∧ escByte 0x0a = [0x5c, 0x6e] ∧ escByte 0x0d = [0x5c, 0x72] ∧
          escByte 0x09 = [0x5c, 0x74]) ∧
        ∀ x : UInt8, x < 0x20 → x ≠ 0x08 → x ≠ 0x09 → x ≠ 0x0a → x ≠ 0x0c → x ≠ 0x0d →
          escByte x =
            [0x5c, 0x75, 0x30, 0x30, Bytes.hexDigit (x.toNat / 16), Bytes.hexDigit (x.toNat % 16)]) ∧
      (∀ ps, Cut b ps ↔ ps = pieces b) ∧
      (∀ p ∈ pieces b, p ≠ []) ∧
      (pieces b).IsChain (fun p q => ¬ (p.all passes = true ∧ q.all passes = true)) ∧
      (∀ x, needsEscape x = false ↔ escByte x = [x]) ∧
      (escapeBytes b).get = b.flatMap escByte ∧
      ((escapeBytes b).isBorrowed = true ↔ ∀ x ∈ b, needsEscape x = false) ∧
      (∀ a, escape (a ++ b) = escape a ++ escape b) ∧
      (∀ (v : Value) (d : Delim),
        Op.text d (Compose.writeEscapedDisplay v) = escape (Bytes.ofString v.display)) ∧
      ∀ (lead : String) (ps : List String) (d : Delim),
        Op.text d (Compose.quoteDisplay lead ps) =
          d.bytes ++ (0x22 :: escape (Bytes.ofString (lead ++ String.join ps)) ++ [0x22]) := by
  have hcut := cut_pieces b
  refine ⟨flatten_pieces b, ⟨fun _ => escByte_of_printable, escByte_short, fun _ => escByte_of_control⟩,
    fun _ => cut_iff, hcut.ne_nil, hcut.runs_apart, needsEscape_eq_false_iff,
    escapeBytes_get b, ?_, fun a => escape_append a b, Compose.text_writeEscapedDisplay,
    fun lead ps d => Compose.text_quoteDisplay d lead ps⟩
  rw [escapeBytes_isBorrowed, unchanged, List.all_eq_true]
  simp [needsEscape]

-- `abc""def`: one run, two escapes that stay apart, one run.
example : pieces [0x61, 0x62, 0x63, 0x22, 0x22, 0x64, 0x65, 0x66] =
    [[0x61, 0x62, 0x63], [0x5c, 0x22], [0x5c, 0x22], [0x64, 0x65, 0x66]] := by decide

end Text.Escape

end JsonLine
