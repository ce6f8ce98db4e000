/-
# Numbers and moments are never split between writes

Before a value `scalar` puts the pending separator and reserves `scalarHeadroom = 64` bytes, and a
moment reserves `timestampHeadroom = 32` bytes after its separator.  The reservation is what keeps a
number or a moment in one piece: after it the region has room for the whole text, so no flush falls
inside it, and the text leaves the line inside one write call, whichever comes first of a later
flush and release.

That needs every such text to fit in the room reserved:

* an integer of any of the four widths is at most 40 bytes (`-2^127` has 39 digits and a sign);
* a float's text is at most 26 bytes, in either notation (`Float.length_floatText_le`);
* a moment in the supported years, `-262143` to `262142`, is at most 29 bytes: a quote, a year of
  at most seven characters, twenty more and a quote; each two-digit field of a valid moment is below
  100, so none is cut.

`Line.HoldsWhole` says what "not split" means for a list of requests: they cause only the events of
their separator and reservation, and then leave the text at the end of the region.
`numbers_and_moments_stay_whole` states it for every value `scalar` writes as one number, literal or
moment (`Value.Atomic`), on every line state whose capacity is at least the headroom, which every
validated pool's is; and the same for a moment on its own with `timestampHeadroom`.
-/
import JsonLine.Proofs.ShortestDigits
import JsonLine.Proofs.LockDiscipline
import JsonLine.Proofs.Composition
import JsonLine.Proofs.Json.RoundTrip
import JsonLine.Platform.Calendar

namespace JsonLine

/-! ## 1. Requests that fit -/

namespace Line

theorem throughRelease_cons (l : Line) (op : Op) (ops : List Op) :
    l.throughRelease (op :: ops) = (l.step op).2 ++ (l.step op).1.throughRelease ops := by
  simp [throughRelease, run_cons]

theorem throughRelease_append (l : Line) (ops ops' : List Op) :
    l.throughRelease (ops ++ ops') = (l.run ops).2 ++ (l.run ops).1.throughRelease ops' := by
  simp [throughRelease, run_append]

/-- **Requests that fit run without a flush.**  If the region holds at most `B` bytes once the
requests have handed over their text, and every reservation among them finds room after `B` bytes,
they write nothing and append exactly their text. -/
theorem run_of_room (l : Line) (ops : List Op) (B : Nat)
    (hB : l.buffered.size + (Op.text l.delim ops).length ≤ B) (hC : B ≤ l.capacity)
    (hr : ∀ n, .reserve n ∈ ops → B + min n l.capacity ≤ l.capacity) :
    l.run ops =
      ({ l with
          buffered := l.buffered ++ (Op.text l.delim ops).toArray, delim := Op.pendingAfter l.delim ops },
        []) := by
  induction ops generalizing l with
  | nil => simp
  | cons op ops ih =>
    have hr' : ∀ n, .reserve n ∈ ops → B + min n l.capacity ≤ l.capacity :=
      fun n hn => hr n (List.mem_cons_of_mem _ hn)
    rw [run_cons]
    cases op with
    | put b =>
      simp only [Op.text_put, List.length_append] at hB
      have hfit : b.length ≤ l.remaining := by
        unfold remaining
        omega
      have hrest := ih { l with buffered := l.buffered ++ b.toArray }
        (by simp only [Array.size_append, List.size_toArray]; omega) hC hr'
      rw [step, put_of_fits hfit]
      dsimp only
      rw [hrest]
      simp [Array.append_assoc]
    | reserve n =>
      have hroom : min n l.capacity ≤ l.remaining := by
        have := hr n (by simp)
        simp only [Op.text_reserve] at hB
        unfold remaining
        omega
      simp only [Op.text_reserve] at hB
      rw [step, reserve_of_room hroom]
      dsimp only
      rw [ih l hB hC hr']
      simp
    | delimit =>
      simp only [Op.text_delimit, List.length_append] at hB
      have hfit : l.delim.bytes.length ≤ ({ l with delim := .empty } : Line).remaining := by
        unfold remaining
        simp only
        omega
      have hrest := ih { l with delim := .empty, buffered := l.buffered ++ l.delim.bytes.toArray }
        (by simp only [Array.size_append, List.size_toArray]; omega) hC hr'
      rw [step, put_of_fits hfit]
      dsimp only
      rw [hrest]
      simp [Array.append_assoc]
    | pend d =>
      simp only [Op.text_pend] at hB
      have hrest := ih { l with delim := d } hB hC hr'
      rw [step]
      dsimp only
      rw [hrest]
      simp

/-- **After a reservation of `h` bytes the region has room for them,** whatever it held. -/
theorem reserve_room (l : Line) {h : Nat} (hpos : 0 < h) (hcap : h ≤ l.capacity) :
    (l.reserve h).1.buffered.size + h ≤ l.capacity := by
  rcases reserve_cases l h with ⟨hroom, heq⟩ | ⟨-, heq⟩
  · rw [heq]
    show l.buffered.size + h ≤ l.capacity
    unfold remaining at hroom
    rw [Nat.min_eq_left hcap] at hroom
    omega
  · rw [heq]
    simpa using hcap

/-! ## 2. Bytes held in the region leave it in one write

Each request either writes the region out whole or keeps it at the front of the region it leaves, so
bytes held in the region are found, in one piece, in a write call of every continuation. -/

theorem overflow_writes_or_empty (l : Line) :
    l.buffered.toList ∈ Event.written l.overflow.2 ∨ l.buffered.toList = [] := by
  rw [written_overflow]
  split
  · exact .inr ‹_›
  · exact .inl (List.mem_singleton_self _)

theorem put_writes_or_keeps (l : Line) (b : Bytes) :
    l.buffered.toList ∈ Event.written (l.put b).2 ∨ l.buffered.toList <+: (l.put b).1.buffered.toList := by
  rcases put_cases l b with ⟨-, h⟩ | ⟨-, -, h⟩ | ⟨-, -, h⟩
  · exact .inr (by simp [h])
  · rcases overflow_writes_or_empty l with hw | hnil
    · exact .inl (by simp [h, hw])
    · exact .inr (hnil ▸ List.nil_prefix)
  · rcases overflow_writes_or_empty l with hw | hnil
    · exact .inl (by simp [h, hw])
    · exact .inr (hnil ▸ List.nil_prefix)

/-- **One request writes the region out or keeps it at the front.** -/
theorem step_writes_or_keeps (l : Line) (op : Op) :
    l.buffered.toList ∈ Event.written (l.step op).2 ∨ l.buffered.toList <+: (l.step op).1.buffered.toList := by
  cases op with
  | put b => exact put_writes_or_keeps l b
  | reserve n =>
    rcases reserve_cases l n with ⟨-, h⟩ | ⟨-, h⟩
    · exact .inr (by simp [step, h])
    · rcases overflow_writes_or_empty l with hw | hnil
      · exact .inl (by simp [step, h, hw])
      · exact .inr (hnil ▸ List.nil_prefix)
  | delimit => exact put_writes_or_keeps { l with delim := .empty } l.delim.bytes
  | pend d => exact .inr (List.prefix_refl _)

/-- **Bytes held in the region leave it inside one write call,** whatever requests follow before
release. -/
theorem held_leaves_whole {body : Bytes} (hne : body ≠ []) :
    ∀ (ops : List Op) (l : Line), body <:+: l.buffered.toList →
      ∃ w ∈ Event.written (l.throughRelease ops), body <:+: w
  | [], l, hheld => by
    -- release writes the region, which is not empty
    have hbuf : l.buffered.toList ≠ [] := fun hnil => hne (List.eq_nil_of_infix_nil (hnil ▸ hheld))
    refine ⟨l.buffered.toList, ?_, hheld⟩
    simp [throughRelease, finish, written_flushEvents, hbuf]
  | op :: ops, l, hheld => by
    rw [throughRelease_cons]
    rcases step_writes_or_keeps l op with hw | hkeep
    · exact ⟨_, by simp [hw], hheld⟩
    · obtain ⟨w, hw, hbw⟩ := held_leaves_whole hne ops _ (hheld.trans hkeep.isInfix)
      exact ⟨w, by simp [hw], hbw⟩

/-- **`ops` hand `body` to the region whole, after a separator and a reservation of `h` bytes:**
run on `l`, they cause only the events of those two requests, and then leave `body` at the end of
the region with a comma pending. -/
def HoldsWhole (l : Line) (h : Nat) (ops : List Op) (body : Bytes) : Prop :=
  l.run ops =
    ({ (l.run [.delimit, .reserve h]).1 with
        buffered := (l.run [.delimit, .reserve h]).1.buffered ++ body.toArray, delim := .comma },
      (l.run [.delimit, .reserve h]).2)

/-- **Held whole, written whole:** whatever follows, some write call carries all of `body`. -/
theorem HoldsWhole.written_whole {l : Line} {h : Nat} {ops : List Op} {body : Bytes}
    (hw : l.HoldsWhole h ops body) (hne : body ≠ []) (rest : List Op) :
    ∃ w ∈ Event.written (l.throughRelease (ops ++ rest)), body <:+: w := by
  set l₁ := (l.run [.delimit, .reserve h]).1
  rw [throughRelease_append, hw]
  obtain ⟨w, hw', hbw⟩ := held_leaves_whole hne rest
    { l₁ with buffered := l₁.buffered ++ body.toArray, delim := .comma }
    (by simpa only [Array.toList_append, List.toList_toArray] using (List.suffix_append _ body).isInfix)
  exact ⟨w, by rw [Event.written_append]; exact List.mem_append_right _ hw', hbw⟩

/-- **A separator, a reservation of `h` bytes and a body that fits in them hold the body whole.**
The body hands over at most `h` bytes, and any reservation inside it fits after them. -/
theorem holdsWhole_of_fits {l : Line} {h : Nat} {body : List Op} (hpos : 0 < h) (hcap : h ≤ l.capacity)
    (htext : (Op.text .empty body).length ≤ h)
    (hr : ∀ n, .reserve n ∈ body → (Op.text .empty body).length + n ≤ h)
    (hpend : Op.pendingAfter .empty body = .comma) :
    l.HoldsWhole h (.delimit :: .reserve h :: body) (Op.text .empty body) := by
  set l₁ := (l.run [.delimit, .reserve h]).1
  have hdelim : l₁.delim = .empty := by simp [l₁, run_delim]
  have hcap₁ : l₁.capacity = l.capacity := by simp [l₁]
  have hroom : l₁.buffered.size + h ≤ l₁.capacity := by
    have hrun : l₁ = ((l.step .delimit).1.reserve h).1 := by simp [l₁, run_cons, step]
    rw [hrun, reserve_capacity]
    exact reserve_room _ hpos (by simpa using hcap)
  have hbody := run_of_room l₁ body (l₁.buffered.size + (Op.text .empty body).length)
    (by rw [hdelim]) (by omega) (fun n hn => by have := hr n hn; omega)
  rw [hdelim, hpend] at hbody
  show l.run ([.delimit, .reserve h] ++ body) = _
  rw [run_append, hbody, List.append_nil]

end Line

/-! ## 3. Texts that fit in the headroom -/

namespace Value

/-- **A value written as one number, literal or moment:** null, a boolean, an integer within its
width, a float of either width and any bit pattern, or a moment in the supported range. -/
inductive Atomic : Value → Prop
  | null : Atomic .null
  | bool (b : Bool) : Atomic (.bool b)
  | integer (kind : IntKind) (i : Int) (least : kind.least ≤ i) (greatest : i ≤ kind.greatest) :
      Atomic (.integer kind i)
  | float (p : Precision) (bits : Nat) : Atomic (.float p bits)
  | time (t : Time.DateTime) (valid : t.moment.Valid) : Atomic (.time t)

end Value

/-- **An integer of any of the four widths is at most 40 bytes:** its magnitude is at most `2^128`,
which has 39 digits. -/
theorem length_intBytes_le {kind : IntKind} {i : Int} (hlo : kind.least ≤ i) (hhi : i ≤ kind.greatest) :
    (Decimal.intBytes i).length ≤ 40 := by
  have hmag : i.natAbs < 10 ^ 39 := by
    have hbound : (i.natAbs : Int) ≤ 2 ^ 128 := by
      cases kind <;> simp only [IntKind.least, IntKind.greatest] at hlo hhi <;> omega
    omega
  have hw := (Decimal.width_le_iff (by decide : 0 < 39)).mpr hmag
  rw [Decimal.intBytes_eq, List.length_append, Float.length_bytes]
  split <;> simp <;> omega

namespace Time.Moment

/-- **Each two-digit field of a valid moment is below 100,** so none is cut to its last two
digits. -/
theorem fields_lt_hundred {t : Moment} (h : t.Valid) :
    ∀ n ∈ [t.month, t.day, t.hour, t.minute, t.second], n < 100 := by
  obtain ⟨-, -, -, hmo, -, hd, hh, hmi, hs, -⟩ := h
  have hday := daysInMonth_le t.year t.month
  simp only [List.mem_cons, List.not_mem_nil, or_false]
  rintro n (rfl | rfl | rfl | rfl | rfl) <;> omega

/-- **The text of a moment of the supported years is at most 27 bytes:** a year of at most six
digits and a sign, and twenty bytes of date and time. -/
theorem length_momentText {t : Moment} (h : t.Valid) :
    (Bytes.ofString (Reference.momentText t)).length ≤ 27 := by
  have hfields := fields_lt_hundred h
  have hyear : (Decimal.intBytes t.year).length ≤ 7 := by
    have hmag : t.year.natAbs < 10 ^ 6 := by
      have := h.1
      have := h.2.1
      omega
    have hw := (Decimal.width_le_iff (by decide : 0 < 6)).mpr hmag
    rw [Decimal.intBytes_eq, List.length_append, Float.length_bytes]
    split <;> simp <;> omega
  have hclock := length_clockText (hfields t.month (by simp)) (hfields t.day (by simp))
    (hfields t.hour (by simp)) (hfields t.minute (by simp)) (hfields t.second (by simp))
    (Nat.lt_of_le_of_lt (Nat.min_le_right t.millis 999) (by decide))
  rw [momentText_eq_clockText h, Bytes.ofString_append, Decimal.ofString_intText]
  simp only [List.length_append, hclock]
  omega

end Time.Moment

/-- **A date-time of the supported years is at most 29 bytes:** two quotes around its moment. -/
theorem Time.DateTime.length_reference_time {t : Time.DateTime} (h : t.moment.Valid) :
    (Value.time t).reference.length ≤ 29 := by
  have hmoment := Time.Moment.length_momentText h
  show ([0x22] ++ Bytes.ofString (Reference.momentText t.moment) ++ [0x22]).length ≤ 29
  simp only [List.length_append, List.length_singleton]
  omega

namespace Value.Atomic

variable {v : Value}

theorem isEmptyMap_eq_false (hv : v.Atomic) : v.isEmptyMap = false := by
  cases hv <;> rfl

theorem reference_ne_nil (hv : v.Atomic) : v.reference ≠ [] := by
  cases hv with
  | null => decide
  | bool b => cases b <;> decide
  | integer kind i _ _ => exact List.ne_nil_of_length_pos (Json.ReadsAs.length_pos (Json.readsAs_intBytes i))
  | float p bits => exact List.ne_nil_of_length_pos (Json.ReadsAs.length_pos (Value.readsAs_float p bits))
  | time t _ => simp [Value.reference]

/-- `scalar` starts such a value with the separator and the headroom reservation. -/
theorem scalar_eq (hv : v.Atomic) :
    Compose.scalar v = .delimit :: .reserve Compose.scalarHeadroom :: (Compose.scalar v).drop 2 := by
  cases hv <;> rfl

/-- **The text fits in the headroom,** and so does a moment's own reservation after it. -/
theorem fits (hv : v.Atomic) :
    v.reference.length ≤ Compose.scalarHeadroom ∧
      ∀ n, .reserve n ∈ (Compose.scalar v).drop 2 → v.reference.length + n ≤ Compose.scalarHeadroom := by
  have hpend : ∀ h, Op.ReservesAtMost h [.pend .comma] := fun _ => Op.ReservesAtMost.cons_of_ne (by simp) .nil
  unfold Compose.scalarHeadroom
  -- a number or a literal reserves nothing after the headroom; a moment reserves its own 32 bytes
  cases hv with
  | null =>
    have hb : Op.ReservesAtMost 0 ((Compose.scalar .null).drop 2) := (Op.ReservesAtMost.map_put [_]).append (hpend 0)
    have hlen : Value.null.reference.length = 4 := by decide
    exact ⟨by omega, fun n hn => by have := hb n hn; omega⟩
  | bool b =>
    have hb : Op.ReservesAtMost 0 ((Compose.scalar (.bool b)).drop 2) :=
      (Op.ReservesAtMost.map_put [_]).append (hpend 0)
    have hlen : (Value.bool b).reference.length ≤ 5 := by cases b <;> decide
    exact ⟨by omega, fun n hn => by have := hb n hn; omega⟩
  | integer kind i hlo hhi =>
    have hb : Op.ReservesAtMost 0 ((Compose.scalar (.integer kind i)).drop 2) :=
      (Compose.reservesAtMost_pieces 0 _).append (hpend 0)
    have hlen : (Value.integer kind i).reference.length ≤ 40 := length_intBytes_le hlo hhi
    exact ⟨by omega, fun n hn => by have := hb n hn; omega⟩
  | float p bits =>
    have hfloat : Op.ReservesAtMost 0 (Compose.float p bits) := by
      unfold Compose.float
      split
      · exact Compose.reservesAtMost_pieces _ _
      · exact Compose.reservesAtMost_quoteDisplay _ _ _
    have hb : Op.ReservesAtMost 0 ((Compose.scalar (.float p bits)).drop 2) := hfloat.append (hpend 0)
    have hlen : (Value.float p bits).reference.length ≤ 26 := Float.length_floatText_le p bits
    exact ⟨by omega, fun n hn => by have := hb n hn; omega⟩
  | time t ht =>
    have hb : Op.ReservesAtMost Compose.timestampHeadroom ((Compose.scalar (.time t)).drop 2) :=
      (Compose.reservesAtMost_timestampAt t.moment).append (hpend _)
    have hlen := Time.DateTime.length_reference_time ht
    refine ⟨by omega, fun n hn => ?_⟩
    have := hb n hn
    unfold Compose.timestampHeadroom at this
    omega

/-- **`scalar` holds such a value's text whole** on every line with room for the headroom. -/
theorem holdsWhole (hv : v.Atomic) {l : Line} (hcap : Compose.scalarHeadroom ≤ l.capacity) :
    l.HoldsWhole Compose.scalarHeadroom (Compose.scalar v) v.reference := by
  obtain ⟨hlen, hres⟩ := hv.fits
  obtain ⟨htext, hpend⟩ := Value.text_scalar v .empty
  rw [hv.isEmptyMap_eq_false, hv.scalar_eq] at htext hpend
  simp only [Bool.false_eq_true, if_false, Op.text_delimit, Op.text_reserve, Delim.bytes_empty,
    List.nil_append, Op.pendingAfter_delimit, Op.pendingAfter_reserve] at htext hpend
  rw [hv.scalar_eq]
  have h : l.HoldsWhole Compose.scalarHeadroom
      (.delimit :: .reserve Compose.scalarHeadroom :: (Compose.scalar v).drop 2)
      (Op.text .empty ((Compose.scalar v).drop 2)) :=
    Line.holdsWhole_of_fits (by decide) hcap (htext ▸ hlen) (htext ▸ hres) hpend
  rwa [htext] at h

end Value.Atomic

namespace Time.DateTime

/-- **A moment on its own is held whole** on every line with room for its headroom: after its
separator and reservation it reserves nothing more. -/
theorem holdsWhole_timestampAt {t : DateTime} (h : t.moment.Valid) {l : Line}
    (hcap : Compose.timestampHeadroom ≤ l.capacity) :
    l.HoldsWhole Compose.timestampHeadroom (Compose.timestampAt t.moment) (Value.time t).reference := by
  have hs : Compose.timestampAt t.moment = .delimit :: .reserve Compose.timestampHeadroom :: (Compose.timestampAt t.moment).drop 2 := by
    simp only [Compose.timestampAt, List.cons_append, List.drop_succ_cons, List.drop_zero]
  have htext : Op.text .empty ((Compose.timestampAt t.moment).drop 2) = (Value.time t).reference := by
    have h := Compose.text_timestampAt t.moment
    rw [hs] at h
    simp only [Op.text_delimit, Op.text_reserve, Delim.bytes_empty, List.nil_append] at h
    exact h
  have hpend : Op.pendingAfter .empty ((Compose.timestampAt t.moment).drop 2) = .comma := by
    have h := Compose.pendingAfter_timestampAt .empty t.moment
    rw [hs] at h
    simpa only [Op.pendingAfter_delimit, Op.pendingAfter_reserve] using h
  have hnone : ∀ n, .reserve n ∉ (Compose.timestampAt t.moment).drop 2 := by
    intro n hn
    simp [Compose.timestampAt, Compose.pieces_eq, Compose.int2, Compose.padded, Compose.zeroRuns_eq_map] at hn
  have hlen := length_reference_time h
  rw [hs]
  have hw : l.HoldsWhole Compose.timestampHeadroom
      (.delimit :: .reserve Compose.timestampHeadroom :: (Compose.timestampAt t.moment).drop 2)
      (Op.text .empty ((Compose.timestampAt t.moment).drop 2)) :=
    Line.holdsWhole_of_fits (by decide) hcap (by rw [htext]; unfold Compose.timestampHeadroom; omega)
      (fun n hn => absurd hn (hnone n)) hpend
  rwa [htext] at hw

end Time.DateTime

/-- **Every validated pool has room for the headroom:** it refuses capacities below 128. -/
theorem scalarHeadroom_le_of_validate {o o' : Pool.Options} (h : o.validate = .ok o') :
    Compose.scalarHeadroom ≤ o'.scratchCapacity := by
  unfold Pool.Options.validate at h
  split_ifs at h with hsmall
  cases h
  unfold Compose.scalarHeadroom
  unfold Pool.minScratchCapacity at hsmall
  omega

/-! ## 4. Numbers and moments stay whole -/

/-- **Numbers and moments are never split between writes.**  Every validated pool's lines have
room for the 64 bytes `scalar` reserves.  An integer of any width takes at most 40 bytes; the
shortest digits of a binary64 number are at most 17 and of a binary32 at most 9, so a float's text
takes at most 26 bytes in either notation.  So on a line of any state with room for the headroom,
`scalar` of a null, a boolean, an integer, a float or a moment causes only the events of its
separator and reservation, and then leaves its text at the end of the region; whatever follows,
some write call carries the whole text.  A valid moment has its two-digit fields below 100, takes
at most 29 bytes, and is held whole in the same way on its own after its 32-byte reservation. -/
theorem numbers_and_moments_stay_whole :
    (∀ o o' : Pool.Options, o.validate = .ok o' → Compose.scalarHeadroom ≤ o'.scratchCapacity) ∧
    (∀ kind i, kind.least ≤ i → i ≤ kind.greatest → (Value.integer kind i).reference.length ≤ 40) ∧
    (∀ tie m q, 0 < m → m < 2 ^ 53 → Decimal.width (Float.shortest tie .binary64 m q).1 ≤ 17) ∧
    (∀ tie m q, 0 < m → m < 2 ^ 24 → Decimal.width (Float.shortest tie .binary32 m q).1 ≤ 9) ∧
    (∀ p bits, (Value.float p bits).reference.length ≤ 26) ∧
    (∀ v : Value, v.Atomic → ∀ l : Line, Compose.scalarHeadroom ≤ l.capacity →
      l.HoldsWhole Compose.scalarHeadroom (Compose.scalar v) v.reference ∧
      ∀ rest, ∃ w ∈ Event.written (l.throughRelease (Compose.scalar v ++ rest)), v.reference <:+: w) ∧
    (∀ t : Time.DateTime, t.moment.Valid →
      (∀ n ∈ [t.moment.month, t.moment.day, t.moment.hour, t.moment.minute, t.moment.second], n < 100) ∧
      (Value.time t).reference.length ≤ 29 ∧
      ∀ l : Line, Compose.timestampHeadroom ≤ l.capacity →
        l.HoldsWhole Compose.timestampHeadroom (Compose.timestampAt t.moment) (Value.time t).reference ∧
        ∀ rest, ∃ w ∈ Event.written (l.throughRelease (Compose.timestampAt t.moment ++ rest)),
          (Value.time t).reference <:+: w) := by
  refine ⟨fun o o' h => scalarHeadroom_le_of_validate h, fun kind i hlo hhi => length_intBytes_le hlo hhi,
    fun tie m q hm hmp => Float.width_shortest_binary64_le tie hm hmp q,
    fun tie m q hm hmp => Float.width_shortest_binary32_le tie hm hmp q,
    fun p bits => Float.length_floatText_le p bits, fun v hv l hcap => ?_, fun t ht => ?_⟩
  · have hw := hv.holdsWhole hcap
    exact ⟨hw, hw.written_whole hv.reference_ne_nil⟩
  · refine ⟨Time.Moment.fields_lt_hundred ht, Time.DateTime.length_reference_time ht, fun l hcap => ?_⟩
    have hw := Time.DateTime.holdsWhole_timestampAt ht hcap
    exact ⟨hw, hw.written_whole (Value.Atomic.time t ht).reference_ne_nil⟩

/-- The longest integer, `-2^127`, on a line of exactly the headroom, and the longest moment, in
the first supported year and inside a leap second, on a line of exactly its headroom. -/
theorem numbers_and_moments_stay_whole_at_the_edges :
    (Value.integer .i128 (-2 ^ 127)).reference.length = 40 ∧
      (Line.fresh 64).HoldsWhole Compose.scalarHeadroom (Compose.scalar (.integer .i128 (-2 ^ 127)))
        (Value.integer .i128 (-2 ^ 127)).reference ∧
      (Value.time (Time.Calendar.dateTime ⟨-262143, 12, 31, 23, 59, 59, 1999999999⟩)).reference.length = 29 ∧
      (Line.fresh 32).HoldsWhole Compose.timestampHeadroom (Compose.timestampAt ⟨-262143, 12, 31, 23, 59, 59, 1999999999⟩)
        (Value.time (Time.Calendar.dateTime ⟨-262143, 12, 31, 23, 59, 59, 1999999999⟩)).reference :=
  ⟨by decide,
    (numbers_and_moments_stay_whole.2.2.2.2.2.1 _ (.integer .i128 _ (by decide) (by decide)) _ (by decide)).1,
    by decide,
    ((numbers_and_moments_stay_whole.2.2.2.2.2.2
      (Time.Calendar.dateTime ⟨-262143, 12, 31, 23, 59, 59, 1999999999⟩) (by decide)).2.2 _ (by decide)).1⟩

end JsonLine
