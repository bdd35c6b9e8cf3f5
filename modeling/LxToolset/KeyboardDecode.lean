import LxToolset.KeyboardTest

/-!
# Key events and the marks they leave

A keyboard sends a stream of make and break codes, plain or after an `e0` prefix, and
`read` cuts it into buffers. `count_keys` tells the two tables apart by the first byte of
a buffer alone : where that is `e0` it indexes past the second table, elsewhere it takes
every code for a plain one. `marksMade_iff` says exactly when the marks are
nevertheless those of the make codes sent.
-/

namespace LxToolset

open Keyboard

/-- One key event, with its code. -/
structure KeyEvent where
  /-- Sent after an `e0` prefix. -/
  ext : Bool
  /-- A break code, with bit 7 set. -/
  brk : Bool
  code : UInt8
  pos : 1 ≤ code
  le : code ≤ 0x7f

/-- The bytes the keyboard sends. -/
def KeyEvent.bytes (e : KeyEvent) : List UInt8 :=
  (if e.ext then [0xe0] else []) ++ [if e.brk then e.code ||| 0x80 else e.code]

def stream (es : List KeyEvent) : List UInt8 :=
  es.flatMap KeyEvent.bytes

/-- `read` delivers `bytes` in these buffers. -/
structure IsCut (chunks : List (List UInt8)) (bytes : List UInt8) : Prop where
  flatten : chunks.flatten = bytes
  pos : ∀ chunk ∈ chunks, 1 ≤ chunk.length
  le : ∀ chunk ∈ chunks, chunk.length ≤ 18

/-- The make code `c` is sent, after an `e0` prefix or plain. -/
def Made (es : List KeyEvent) (ext : Bool) (c : ℕ) : Prop :=
  ∃ e ∈ es, e.ext = ext ∧ e.brk = false ∧ e.code.toNat = c

/-- The entries marked are the listed ones whose make code was sent, and `key_count` is
their number. -/
def MarksMade (o : Option Keyboard) (es : List KeyEvent) : Prop :=
  ∃ kb, o = some kb ∧ (∀ c, kb.Pressed .plain c ↔ Listed .plain c ∧ Made es false c) ∧
    (∀ c, kb.Pressed .e0 c ↔ Listed .e0 c ∧ Made es true c) ∧ kb.keyCount = kb.pressedCount

/-- When `count_keys` marks the right entries. -/
structure DecodesPlainly (buf : List UInt8) (chunks : List (List UInt8)) (es : List KeyEvent) :
    Prop where
  /-- No buffer starts with the prefix, which would be looked up itself. -/
  start : ∀ chunk ∈ chunks, chunk.head? ≠ some 0xe0
  /-- No full buffer ends with `1d`, after which the next byte would be read. -/
  last : ∀ chunk ∈ chunks, chunk.length = 18 → chunk.getLast? ≠ some 0x1d
  /-- No listed key of the second table is made. -/
  ext : ∀ c, Made es true c → ¬Listed .e0 c
  /-- A code made after the prefix is also made without, if it is listed without. -/
  plain : ∀ c, c ≠ 0x1d → Made es true c → Listed .plain c → Made es false c
  /-- Left Ctrl is made when some `1d` is not followed by `45` in the memory of its buffer,
  and only then. -/
  ctrl : Made es false 0x1d ↔ ∃ v ∈ views buf (chunks.map some),
    ∃ i < v.2.toNat, v.1[i]? = some 0x1d ∧ v.1[i + 1]? ≠ some 0x45

/-! ## Bytes of the stream -/

theorem mem_bytes_iff {e : KeyEvent} {b : UInt8} (hb : b ≤ 0x7f) :
    b ∈ e.bytes ↔ e.brk = false ∧ e.code = b := by
  have hpre : b ≠ 0xe0 := by
    rintro rfl
    exact absurd hb (by decide)
  have hbrk : b ≠ e.code ||| 0x80 := by
    rintro rfl
    rw [UInt8.le_iff_toNat_le, UInt8.toNat_or] at hb
    exact absurd (Nat.right_le_or.trans hb) (by decide)
  obtain ⟨ext, brk, code, pos, le⟩ := e
  cases ext <;> cases brk <;> simp_all [KeyEvent.bytes, eq_comm]

theorem mem_stream_iff {es : List KeyEvent} {b : UInt8} (hb : b ≤ 0x7f) :
    b ∈ stream es ↔ Made es false b.toNat ∨ Made es true b.toNat := by
  simp only [stream, List.mem_flatMap, mem_bytes_iff hb]
  constructor
  · rintro ⟨e, he, hbrk, rfl⟩
    cases hext : e.ext with
    | false => exact .inl ⟨e, he, hext, hbrk, rfl⟩
    | true => exact .inr ⟨e, he, hext, hbrk, rfl⟩
  · rintro (⟨e, he, -, hbrk, hc⟩ | ⟨e, he, -, hbrk, hc⟩) <;>
      exact ⟨e, he, hbrk, UInt8.toNat_inj.1 hc⟩

theorem Made.le {es : List KeyEvent} {ext : Bool} {c : ℕ} (h : Made es ext c) :
    ∃ b : UInt8, b.toNat = c ∧ b ≤ 0x7f := by
  obtain ⟨e, -, -, -, hc⟩ := h
  exact ⟨e.code, hc, e.le⟩

/-! ## Lookups of a buffer that does not start with the prefix -/

section Lookup

variable {buf : List UInt8} {i n : ℕ} {ch first : UInt8}

theorem le_7f_iff : ch ≤ 0x7f ↔ ch.toNat < 128 := by
  rw [UInt8.le_iff_toNat_le]
  exact Nat.lt_succ_iff.symm

theorem lookup_of_ne (hfirst : buf[0]? = some first) (hne : first ≠ 0xe0)
    (hch : buf[i]? = some ch) (h1d : ch ≠ 0x1d) :
    lookup buf i = some (if ch ≤ 0x7f then some (.plain, ch.toNat) else none) := by
  by_cases hle : ch ≤ 0x7f
  · simp [lookup, classify, hfirst, hne, hch, h1d, hle, le_7f_iff.1 hle]
  · simp [lookup, classify, hfirst, hne, hch, h1d, hle]

theorem lookup_1d {next : UInt8} (hfirst : buf[0]? = some first) (hne : first ≠ 0xe0)
    (hch : buf[i]? = some 0x1d) (hnext : buf[i + 1]? = some next) :
    lookup buf i = some (some (if next = 0x45 then .e0 else .plain, 0x1d)) := by
  by_cases h45 : next = 0x45
  · simp [lookup, classify, hfirst, hch, hnext, h45]
  · simp [lookup, classify, hfirst, hne, hch, hnext, h45]

theorem lookup_1d_end (hch : buf[i]? = some 0x1d) (hnext : buf[i + 1]? = none) :
    lookup buf i = none := by
  simp [lookup, classify, hch, hnext]

theorem lookup_e0_start (hfirst : buf[0]? = some 0xe0) : lookup buf 0 = none := by
  simp [lookup, classify, hfirst]

/-- Without the prefix at the start, a round is undefined only where it looks past the
buffer. -/
theorem lookup_eq_none_iff (hlen : buf.length = 18) (hi : i < 18) (he0 : buf[0]? ≠ some 0xe0) :
    lookup buf i = none ↔ i = 17 ∧ buf[17]? = some 0x1d := by
  obtain ⟨first, hfirst⟩ : ∃ first, buf[0]? = some first :=
    ⟨_, List.getElem?_eq_getElem (by omega)⟩
  obtain ⟨ch, hch⟩ : ∃ ch, buf[i]? = some ch := ⟨_, List.getElem?_eq_getElem (by omega)⟩
  have hne : first ≠ 0xe0 := by
    rintro rfl
    exact he0 hfirst
  constructor
  · intro hnone
    by_cases h1d : ch = 0x1d
    · subst h1d
      by_cases hi17 : i = 17
      · subst hi17
        exact ⟨rfl, hch⟩
      · have hnext : buf[i + 1]? = some buf[i + 1] := List.getElem?_eq_getElem (by omega)
        rw [lookup_1d hfirst hne hch hnext] at hnone
        exact absurd hnone (by simp)
    · rw [lookup_of_ne hfirst hne hch h1d] at hnone
      exact absurd hnone (by simp)
  · rintro ⟨rfl, h1d⟩
    exact lookup_1d_end h1d (List.getElem?_eq_none (by omega))

/-- A call is defined when its buffer does not start with the prefix and no `1d` is the
last byte of the memory. -/
theorem defined_iff (hlen : buf.length = 18) (hn : n ≤ 18) (hpos : 0 < n) :
    Defined buf 0 n ↔ buf[0]? ≠ some 0xe0 ∧ (n = 18 → buf[17]? ≠ some 0x1d) := by
  constructor
  · intro h
    have he0 : buf[0]? ≠ some 0xe0 := fun he0 => h 0 le_rfl (by omega) (lookup_e0_start he0)
    refine ⟨he0, fun h18 h1d => ?_⟩
    exact h 17 (by omega) (by omega) ((lookup_eq_none_iff hlen (by omega) he0).2 ⟨rfl, h1d⟩)
  · rintro ⟨he0, hlast⟩ j - hj hnone
    obtain ⟨rfl, h1d⟩ := (lookup_eq_none_iff hlen (by omega) he0).1 hnone
    exact hlast (by omega) h1d

/-- A defined round looks up its byte in the first table, but for `1d 45`. -/
theorem lookup_of_defined (hfirst : buf[0]? = some first) (hne : first ≠ 0xe0)
    (hch : buf[i]? = some ch) (hd : lookup buf i ≠ none) :
    lookup buf i = some (if ch = 0x1d ∧ buf[i + 1]? = some 0x45 then some (.e0, 0x1d)
      else if ch ≤ 0x7f then some (.plain, ch.toNat) else none) := by
  by_cases h1d : ch = 0x1d
  · subst h1d
    cases hnext : buf[i + 1]? with
    | none => exact absurd (lookup_1d_end hch hnext) hd
    | some next =>
      rw [lookup_1d hfirst hne hch hnext]
      by_cases h45 : next = 0x45 <;> simp [h45]
  · rw [lookup_of_ne hfirst hne hch h1d]
    simp [h1d]

theorem exists_first (hd : Defined buf 0 n) (hpos : 0 < n) (hlen : buf.length = 18) :
    ∃ first, buf[0]? = some first ∧ first ≠ 0xe0 := by
  refine ⟨buf[0], List.getElem?_eq_getElem (by omega), fun he0 => ?_⟩
  exact hd 0 le_rfl (by omega) (lookup_e0_start (he0 ▸ List.getElem?_eq_getElem (by omega)))

/-- A defined call looks up its bytes in the first table, but for `1d 45`. -/
theorem plain_mem_lookups_iff {c : ℕ} (hd : Defined buf 0 n) (hlen : buf.length = 18)
    (hn : n ≤ 18) :
    (KeyTable.plain, c) ∈ lookups buf 0 n ↔ ∃ i < n, ∃ b, buf[i]? = some b ∧ b ≤ 0x7f ∧
      b.toNat = c ∧ (b = 0x1d → buf[i + 1]? ≠ some 0x45) := by
  constructor
  · rintro ⟨j, -, hj, hlook⟩
    rw [Nat.zero_add] at hj
    obtain ⟨first, hfirst, hne⟩ := exists_first hd (by omega) hlen
    have hch : buf[j]? = some buf[j] := List.getElem?_eq_getElem (by omega)
    rw [lookup_of_defined hfirst hne hch (by simp [hlook])] at hlook
    split_ifs at hlook with h1d hle
    · simp at hlook
    · refine ⟨j, hj, buf[j], hch, hle, by simpa using hlook, fun h1 h2 => h1d ⟨h1, h2⟩⟩
    · simp at hlook
  · rintro ⟨j, hj, b, hch, hle, rfl, h1d⟩
    obtain ⟨first, hfirst, hne⟩ := exists_first hd (by omega) hlen
    refine ⟨j, Nat.zero_le _, by omega, ?_⟩
    rw [lookup_of_defined hfirst hne hch (hd j (Nat.zero_le _) (by omega)),
      if_neg fun h => h1d h.1 h.2, if_pos hle]

/-- A defined call looks up nothing but `1d` in the second table. -/
theorem eq_1d_of_e0_mem_lookups {c : ℕ} (hd : Defined buf 0 n) (hlen : buf.length = 18)
    (hn : n ≤ 18) (h : (KeyTable.e0, c) ∈ lookups buf 0 n) : c = 0x1d := by
  obtain ⟨j, -, hj, hlook⟩ := h
  rw [Nat.zero_add] at hj
  obtain ⟨first, hfirst, hne⟩ := exists_first hd (by omega) hlen
  have hch : buf[j]? = some buf[j] := List.getElem?_eq_getElem (by omega)
  rw [lookup_of_defined hfirst hne hch (by simp [hlook])] at hlook
  split_ifs at hlook
  · simpa [eq_comm] using hlook
  · simp at hlook
  · simp at hlook

end Lookup

/-! ## Buffers of a cut -/

section Cut

variable {buf : List UInt8} {chunks : List (List UInt8)}

/-- `read` never grows the buffer, nor delivers more than it holds. -/
theorem views_bounds {rs : List (Option (List UInt8))} {v : List UInt8 × ℤ}
    (hbuf : buf.length = 18) (hle : ∀ chunk, some chunk ∈ rs → chunk.length ≤ 18)
    (hv : v ∈ views buf rs) : v.1.length = 18 ∧ v.2.toNat ≤ 18 := by
  induction rs generalizing buf with
  | nil => simp [views] at hv
  | cons r rs ih =>
    have hread : (readBuf buf r).1.length = 18 ∧ (readBuf buf r).2.toNat ≤ 18 := by
      cases r with
      | none => exact ⟨hbuf, by simp [readBuf]⟩
      | some chunk =>
        have hchunk := hle chunk List.mem_cons_self
        simp only [readBuf, List.length_append, List.length_drop, Int.toNat_natCast]
        omega
    rcases List.mem_cons.1 hv with rfl | hv
    · exact hread
    · exact ih hread.1 (fun chunk h => hle chunk (List.mem_cons_of_mem _ h)) hv

/-- Each view is the memory of the buffer with one chunk read into it. -/
theorem mem_views {v : List UInt8 × ℤ} (hv : v ∈ views buf (chunks.map some)) :
    ∃ chunk ∈ chunks, v.2 = chunk.length ∧ chunk <+: v.1 := by
  induction chunks generalizing buf with
  | nil => simp [views] at hv
  | cons chunk chunks ih =>
    simp only [List.map_cons, views, readBuf, List.mem_cons] at hv
    rcases hv with rfl | hv
    · exact ⟨chunk, List.mem_cons_self, rfl, List.prefix_append _ _⟩
    · obtain ⟨c, hc, h⟩ := ih hv
      exact ⟨c, List.mem_cons_of_mem _ hc, h⟩

variable (buf) in
/-- Each chunk has its view. -/
theorem exists_view {chunk : List UInt8} (hc : chunk ∈ chunks) :
    ∃ v ∈ views buf (chunks.map some), v.2 = chunk.length ∧ chunk <+: v.1 := by
  induction chunks generalizing buf with
  | nil => simp at hc
  | cons c chunks ih =>
    simp only [List.map_cons, views, List.mem_cons]
    rcases List.mem_cons.1 hc with rfl | hc
    · exact ⟨_, .inl rfl, rfl, List.prefix_append _ _⟩
    · obtain ⟨v, hv, h⟩ := ih (readBuf buf (some c)).1 hc
      exact ⟨v, .inr hv, h⟩

theorem getElem?_chunk {chunk mem : List UInt8} {i : ℕ} (h : chunk <+: mem)
    (hi : i < chunk.length) : mem[i]? = chunk[i]? := by
  obtain ⟨rest, rfl⟩ := h
  exact List.getElem?_append_left hi

variable (buf) in
/-- The bytes of a cut are the bytes its calls see. -/
theorem mem_flatten_iff {b : UInt8} :
    b ∈ chunks.flatten ↔
      ∃ v ∈ views buf (chunks.map some), ∃ i < v.2.toNat, v.1[i]? = some b := by
  rw [List.mem_flatten]
  constructor
  · rintro ⟨chunk, hc, hb⟩
    obtain ⟨v, hv, hn, hpre⟩ := exists_view buf hc
    obtain ⟨i, hi, hget⟩ := List.getElem_of_mem hb
    refine ⟨v, hv, i, by rw [hn]; exact hi, ?_⟩
    rw [getElem?_chunk hpre hi, List.getElem?_eq_getElem hi, hget]
  · rintro ⟨v, hv, i, hi, hget⟩
    obtain ⟨chunk, hc, hn, hpre⟩ := mem_views hv
    rw [hn, Int.toNat_natCast] at hi
    rw [getElem?_chunk hpre hi] at hget
    exact ⟨chunk, hc, List.mem_of_getElem? hget⟩

/-- The calls on a cut are defined when no buffer starts with the prefix and no full one
ends with `1d`. -/
theorem defined_views_iff (hbuf : buf.length = 18) (hpos : ∀ chunk ∈ chunks, 1 ≤ chunk.length)
    (hle : ∀ chunk ∈ chunks, chunk.length ≤ 18) :
    (∀ v ∈ views buf (chunks.map some), Defined v.1 0 v.2.toNat) ↔
      (∀ chunk ∈ chunks, chunk.head? ≠ some 0xe0) ∧
        ∀ chunk ∈ chunks, chunk.length = 18 → chunk.getLast? ≠ some 0x1d := by
  have hview : ∀ v ∈ views buf (chunks.map some), ∀ chunk ∈ chunks, v.2 = chunk.length →
      chunk <+: v.1 → (Defined v.1 0 v.2.toNat ↔ chunk.head? ≠ some 0xe0 ∧
        (chunk.length = 18 → chunk.getLast? ≠ some 0x1d)) := by
    intro v hv chunk hc hn hpre
    have h1 := hpos chunk hc
    have h18 := hle chunk hc
    rw [defined_iff (views_bounds hbuf (by simpa using hle) hv).1 (by omega) (by omega), hn,
      Int.toNat_natCast, getElem?_chunk hpre (by omega), ← List.head?_eq_getElem?]
    refine and_congr Iff.rfl (forall_congr' fun heq => ?_)
    rw [getElem?_chunk hpre (by omega), List.getLast?_eq_getElem?, heq]
  constructor
  · intro h
    refine ⟨fun chunk hc => ?_, fun chunk hc => ?_⟩ <;>
      obtain ⟨v, hv, hn, hpre⟩ := exists_view buf hc
    · exact ((hview v hv chunk hc hn hpre).1 (h v hv)).1
    · exact ((hview v hv chunk hc hn hpre).1 (h v hv)).2
  · rintro ⟨hstart, hlast⟩ v hv
    obtain ⟨chunk, hc, hn, hpre⟩ := mem_views hv
    exact (hview v hv chunk hc hn hpre).2 ⟨hstart chunk hc, hlast chunk hc⟩

end Cut

/-! ## The marks of a stream -/

theorem listed_esc : Listed .plain 1 :=
  ⟨.key "ESC" 8 1, by decide, rfl⟩

theorem listed_lctrl : Listed .plain 0x1d :=
  ⟨.key "LCtrl" 18 6, by decide, rfl⟩

theorem not_listed_pause : ¬Listed .e0 0x1d := by
  rintro ⟨k, hk, hv⟩
  have hpause : (Keyboard.initial.table .e0)[0x1d]? = some (.unlisted "Pause" 0 0) := by decide
  rw [hpause] at hk
  obtain rfl := Option.some.inj hk
  exact absurd hv (by decide)

section Marks

variable {buf : List UInt8} {chunks : List (List UInt8)} {es : List KeyEvent} {c : ℕ}

/-- The entries of the first table a defined run looks up. -/
def PlainLookup (buf : List UInt8) (chunks : List (List UInt8)) (c : ℕ) : Prop :=
  ∃ v ∈ views buf (chunks.map some), (KeyTable.plain, c) ∈ lookups v.1 0 v.2.toNat

/-- Away from `1d`, a defined run looks up every code made, after the prefix or not. -/
theorem plainLookup_iff_made (hbuf : buf.length = 18) (hcut : IsCut chunks (stream es))
    (hd : ∀ v ∈ views buf (chunks.map some), Defined v.1 0 v.2.toNat) (hc : c ≠ 0x1d) :
    PlainLookup buf chunks c ↔ Made es false c ∨ Made es true c := by
  have hview : ∀ v ∈ views buf (chunks.map some), v.1.length = 18 ∧ v.2.toNat ≤ 18 :=
    fun v hv => views_bounds hbuf (by simpa using hcut.le) hv
  constructor
  · rintro ⟨v, hv, hmem⟩
    obtain ⟨i, hi, b, hb, hle, rfl, -⟩ :=
      (plain_mem_lookups_iff (hd v hv) (hview v hv).1 (hview v hv).2).1 hmem
    rw [← mem_stream_iff hle, ← hcut.flatten, mem_flatten_iff buf]
    exact ⟨v, hv, i, hi, hb⟩
  · intro hmade
    obtain ⟨b, rfl, hle⟩ : ∃ b : UInt8, b.toNat = c ∧ b ≤ 0x7f := hmade.elim Made.le Made.le
    rw [← mem_stream_iff hle, ← hcut.flatten, mem_flatten_iff buf] at hmade
    obtain ⟨v, hv, i, hi, hb⟩ := hmade
    refine ⟨v, hv, (plain_mem_lookups_iff (hd v hv) (hview v hv).1 (hview v hv).2).2
      ⟨i, hi, b, hb, hle, rfl, ?_⟩⟩
    rintro rfl
    exact absurd rfl hc

/-- A defined run looks up `1d` in the first table where it is not followed by `45`. -/
theorem plainLookup_1d_iff (hbuf : buf.length = 18) (hcut : IsCut chunks (stream es))
    (hd : ∀ v ∈ views buf (chunks.map some), Defined v.1 0 v.2.toNat) :
    PlainLookup buf chunks 0x1d ↔ ∃ v ∈ views buf (chunks.map some),
      ∃ i < v.2.toNat, v.1[i]? = some 0x1d ∧ v.1[i + 1]? ≠ some 0x45 := by
  refine exists_congr fun v => and_congr_right fun hv => ?_
  obtain ⟨hlen, hn⟩ := views_bounds hbuf (by simpa using hcut.le) hv
  rw [plain_mem_lookups_iff (hd v hv) hlen hn]
  refine exists_congr fun i => and_congr_right fun _ => ?_
  constructor
  · rintro ⟨b, hb, -, hbc, h45⟩
    obtain rfl : b = 0x1d := UInt8.toNat_inj.1 hbc
    exact ⟨hb, h45 rfl⟩
  · rintro ⟨hb, h45⟩
    exact ⟨0x1d, hb, by decide, rfl, fun _ => h45⟩

/-- A defined run marks nothing in the second table. -/
theorem not_pressed_e0 {rs : List (Option (List UInt8))} {kb : Keyboard} (hbuf : buf.length = 18)
    (hle : ∀ chunk, some chunk ∈ rs → chunk.length ≤ 18)
    (hd : ∀ v ∈ views buf rs, Defined v.1 0 v.2.toNat)
    (hp : ∀ t c, kb.Pressed t c ↔ Listed t c ∧
      ∃ v ∈ views buf rs, (t, c) ∈ lookups v.1 0 v.2.toNat) : ¬kb.Pressed .e0 c := by
  intro hpressed
  obtain ⟨hl, v, hv, hmem⟩ := (hp .e0 c).1 hpressed
  obtain ⟨hlen, hn⟩ := views_bounds hbuf hle hv
  obtain rfl := eq_1d_of_e0_mem_lookups (hd v hv) hlen hn hmem
  exact not_listed_pause hl

/-- The marks of a defined run are those of the codes made exactly under the last three
conditions of `DecodesPlainly`. -/
theorem marks_iff (hbuf : buf.length = 18) (hcut : IsCut chunks (stream es))
    (hd : ∀ v ∈ views buf (chunks.map some), Defined v.1 0 v.2.toNat) {kb : Keyboard}
    (hp : ∀ t c, kb.Pressed t c ↔ Listed t c ∧
      ∃ v ∈ views buf (chunks.map some), (t, c) ∈ lookups v.1 0 v.2.toNat) :
    ((∀ c, kb.Pressed .plain c ↔ Listed .plain c ∧ Made es false c) ∧
      ∀ c, kb.Pressed .e0 c ↔ Listed .e0 c ∧ Made es true c) ↔
    (∀ c, Made es true c → ¬Listed .e0 c) ∧
      (∀ c, c ≠ 0x1d → Made es true c → Listed .plain c → Made es false c) ∧
      (Made es false 0x1d ↔ PlainLookup buf chunks 0x1d) := by
  have he0 : ∀ c, ¬kb.Pressed .e0 c := fun c =>
    not_pressed_e0 hbuf (by simpa using hcut.le) hd hp
  have hplain : ∀ c, kb.Pressed .plain c ↔ Listed .plain c ∧ PlainLookup buf chunks c := hp .plain
  simp only [hplain, he0, false_iff]
  constructor
  · rintro ⟨h1, h2⟩
    refine ⟨fun c hm hl => h2 c ⟨hl, hm⟩, fun c hc hm hl => ?_, ?_⟩
    · exact ((h1 c).1 ⟨hl, (plainLookup_iff_made hbuf hcut hd hc).2 (.inr hm)⟩).2
    · exact ⟨fun hm => ((h1 0x1d).2 ⟨listed_lctrl, hm⟩).2,
        fun hm => ((h1 0x1d).1 ⟨listed_lctrl, hm⟩).2⟩
  · rintro ⟨hext, hplain', hctrl⟩
    refine ⟨fun c => and_congr_right fun hl => ?_, fun c h => hext c h.2 h.1⟩
    by_cases hc : c = 0x1d
    · rw [hc, hctrl]
    · rw [plainLookup_iff_made hbuf hcut hd hc]
      exact ⟨fun h => h.elim id fun hm => hplain' c hc hm hl, .inl⟩

end Marks

/-- On every stream of key events and every cut of it into buffers, `count_keys` marks
the listed keys that were made and no others exactly when the stream and the cut are
`DecodesPlainly`. -/
theorem marksMade_iff (buf : List UInt8) (hbuf : buf.length = 18) (es : List KeyEvent)
    (chunks : List (List UInt8)) (hcut : IsCut chunks (stream es)) :
    MarksMade (feed buf .initial (chunks.map some)) es ↔ DecodesPlainly buf chunks es := by
  have hdef := defined_views_iff hbuf hcut.pos hcut.le
  rcases feed_outcome buf (chunks.map some) consistent_initial with
    ⟨hd, kb, hkb, -⟩ | ⟨hd, hnone⟩
  · obtain ⟨hcons, hp⟩ := pressed_of_feed hkb
    have hmarks := marks_iff hbuf hcut hd hp
    obtain ⟨hstart, hlast⟩ := hdef.1 hd
    constructor
    · rintro ⟨kb', hkb', h1, h2, -⟩
      obtain rfl : kb = kb' := Option.some.inj (hkb.symm.trans hkb')
      obtain ⟨hext, hplain, hctrl⟩ := hmarks.1 ⟨h1, h2⟩
      exact ⟨hstart, hlast, hext, hplain, hctrl.trans (plainLookup_1d_iff hbuf hcut hd)⟩
    · intro h
      obtain ⟨h1, h2⟩ := hmarks.2
        ⟨h.ext, h.plain, h.ctrl.trans (plainLookup_1d_iff hbuf hcut hd).symm⟩
      exact ⟨kb, hkb, h1, h2, hcons.count⟩
  · constructor
    · rintro ⟨kb, hkb, -⟩
      rw [hnone] at hkb
      cases hkb
    · exact fun h => absurd (hdef.2 ⟨h.start, h.last⟩) hd

/-- `A` pressed and released, and then the left Ctrl key. -/
def aThenCtrl : List KeyEvent :=
  [⟨false, false, 0x1e, by decide, by decide⟩, ⟨false, true, 0x1e, by decide, by decide⟩,
    ⟨false, false, 0x1d, by decide, by decide⟩, ⟨false, true, 0x1d, by decide, by decide⟩]

/-- Read in two buffers, both keys are marked. -/
theorem marksMade_iff_a :
    MarksMade (feed (List.replicate 18 0) .initial [some [0x1e, 0x9e], some [0x1d, 0x9d]])
      aThenCtrl := by
  have hext : ∀ c, ¬Made aThenCtrl true c := by
    rintro c ⟨e, he, hext, -⟩
    have hall : ∀ e ∈ aThenCtrl, e.ext = false := by decide
    rw [hall e he] at hext
    cases hext
  have hctrl : ∃ v ∈ views (List.replicate 18 0) [some [0x1e, 0x9e], some [0x1d, 0x9d]],
      ∃ i < v.2.toNat, v.1[i]? = some 0x1d ∧ v.1[i + 1]? ≠ some 0x45 := by
    decide
  exact (marksMade_iff _ (by decide) _ [[0x1e, 0x9e], [0x1d, 0x9d]]
    ⟨by decide, by decide, by decide⟩).2 ⟨by decide, by decide, fun c h => absurd h (hext c),
      fun c _ h => absurd h (hext c),
      iff_of_true ⟨_, .tail _ (.tail _ (.head _)), rfl, rfl, rfl⟩ hctrl⟩

/-- `A` and then the right Alt key in one buffer : the left Alt key is marked. -/
theorem right_alt_marks_left :
    ¬∀ (buf : List UInt8), buf.length = 18 → ∀ (es : List KeyEvent) (chunks : List (List UInt8)),
      IsCut chunks (stream es) → MarksMade (feed buf .initial (chunks.map some)) es := by
  intro h
  obtain ⟨kb, hkb, h1, -⟩ := h (List.replicate 18 0) (by decide)
    [⟨false, false, 0x1e, by decide, by decide⟩, ⟨true, false, 0x38, by decide, by decide⟩]
    [[0x1e, 0xe0, 0x38]] ⟨by decide, by decide, by decide⟩
  have hlalt : kb.Pressed .plain 0x38 := by
    have hcell : (feed (List.replicate 18 0) .initial [some [0x1e, 0xe0, 0x38]]).map
        (fun kb => (kb.keys[0x38]?).map (·.isPressed)) = some (some true) := by
      decide +kernel
    rw [List.map_singleton] at hkb
    rw [hkb, Option.map_some, Option.some.injEq, Option.map_eq_some_iff] at hcell
    exact hcell
  obtain ⟨-, e, he, hext, -, hc⟩ := (h1 0x38).1 hlalt
  simp only [List.mem_cons, List.not_mem_nil, or_false] at he
  rcases he with rfl | rfl
  · exact absurd hc (by decide)
  · exact absurd hext (by decide)

end LxToolset
