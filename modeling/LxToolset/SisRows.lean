import LxToolset.SisRegs

/-!
# The rows of the loops

The loops of `cmd_read` and `cmd_write` go through their values in rows of 32 bytes, which
`cells` lists. Their counts are computed in `int`s, but whatever overflows, the values are
consecutive : `map_cellAddr` gives their addresses, `valueCount` their number, and
`cells_eq` their rows and columns where nothing overflows.
-/

namespace LxToolset

/-! ## Values in an int -/

theorem int32_def (z : ℤ) :
    int32 z = if z % 2 ^ 32 < 2 ^ 31 then z % 2 ^ 32 else z % 2 ^ 32 - 2 ^ 32 := by
  rw [int32, Int.bmod_def]
  rfl

theorem int32_range (z : ℤ) : -2 ^ 31 ≤ int32 z ∧ int32 z < 2 ^ 31 := by
  rw [int32_def]
  split_ifs <;> omega

theorem int32_of_lt {z : ℤ} (h : -2 ^ 31 ≤ z) (h' : z < 2 ^ 31) : int32 z = z := by
  rw [int32, Int.bmod_eq_of_le] <;> omega

theorem int32_sub {z k : ℤ} (h : -2 ^ 31 ≤ int32 z - k) (h' : int32 z - k < 2 ^ 31) :
    int32 (z - k) = int32 z - k := by
  rw [int32_def] at *
  rw [int32_def]
  split_ifs at * <;> omega

/-- The widths of `sis_rw_ops`. -/
theorem readWidth_cases (argv0 : List Char) :
    readWidth argv0 = 1 ∨ readWidth argv0 = 2 ∨ readWidth argv0 = 4 := by
  unfold readWidth
  split <;> simp

/-! ## Rows and columns -/

/-- The address shown in round `i` of row `tmp`. -/
def cellAddr (start : ℤ) (width tmp i : ℕ) : ℤ :=
  start + tmp * 32 + i * width

/-- The rows and columns of the rounds, in order. -/
def cells (count : ℤ) (width : ℕ) : List (ℕ × ℕ) :=
  (List.range (((int32 (count * width)).tdiv 32).toNat + 1)).flatMap fun tmp =>
    (List.range (lineCount count width tmp).toNat).map fun i => (tmp, i)

/-- The rows before the last. -/
def fullRows (count : ℤ) (width : ℕ) : ℕ :=
  ((int32 (count * width)).tdiv 32).toNat

/-- The number of rounds. -/
def valueCount (count : ℤ) (width : ℕ) : ℕ :=
  fullRows count width * (32 / width) + (count - fullRows count width * (32 / width : ℕ)).toNat

theorem fullRows_eq (count : ℤ) (width : ℕ) :
    fullRows count width = (int32 (count * width)).toNat / 32 := by
  rw [fullRows]
  rcases le_total 0 (int32 (count * width)) with h | h
  · rw [Int.tdiv_eq_ediv_of_nonneg h]
    omega
  · obtain ⟨n, hn⟩ := Int.exists_eq_neg_ofNat h
    rw [hn, Int.neg_tdiv, Int.tdiv_eq_ediv_of_nonneg (by omega)]
    omega

/-- Rows of `p` columns. -/
theorem flatMap_rows (q : ℕ) {p : ℕ} (hp : 0 < p) :
    ((List.range q).flatMap fun t => (List.range p).map fun i => (t, i)) =
      (List.range (q * p)).map fun k => (k / p, k % p) := by
  induction q with
  | zero => simp
  | succ q ih =>
    rw [List.range_succ, List.flatMap_append, ih, List.flatMap_singleton, Nat.succ_mul,
      List.range_add, List.map_append, List.map_map]
    congr 1
    refine List.map_congr_left fun i hi => ?_
    have hip := List.mem_range.1 hi
    have hdiv : (q * p + i) / p = q := by
      rw [Nat.mul_comm, Nat.mul_add_div hp, Nat.div_eq_of_lt hip, Nat.add_zero]
    have hmod : (q * p + i) % p = i := by
      rw [Nat.mul_comm, Nat.mul_add_mod, Nat.mod_eq_of_lt hip]
    simp [hdiv, hmod]

section Rows

variable {count : ℤ} {width : ℕ} (hw : width = 1 ∨ width = 2 ∨ width = 4)

include hw

/-- The bytes that the loops find left at row `t`. -/
theorem bytesLeft_eq {t : ℕ} (ht : t ≤ fullRows count width) :
    int32 ((count - (t * 32 / width : ℕ)) * width) = int32 (count * width) - t * 32 := by
  have hrange := int32_range (count * width)
  have hsub : (count - (t * 32 / width : ℕ)) * width = count * width - t * 32 := by
    rcases hw with rfl | rfl | rfl <;> omega
  rw [fullRows_eq] at ht
  rw [hsub, int32_sub] <;> omega

theorem lineCount_full {t : ℕ} (ht : t < fullRows count width) :
    lineCount count width t = (32 / width : ℕ) := by
  rw [lineCount, bytesLeft_eq hw ht.le, if_pos]
  rw [fullRows_eq] at ht
  omega

theorem lineCount_last : lineCount count width (fullRows count width) =
    count - fullRows count width * (32 / width : ℕ) := by
  have hleft := bytesLeft_eq hw (le_refl (fullRows count width))
  have hrows := fullRows_eq count width
  rw [lineCount, hleft, if_neg (by omega)]
  rcases hw with rfl | rfl | rfl <;> omega

theorem columns_pos : 0 < 32 / width := by
  rcases hw with rfl | rfl | rfl <;> decide

/-- The full rows and the last. -/
theorem cells_split : cells count width =
    ((List.range (fullRows count width * (32 / width))).map fun k =>
      (k / (32 / width), k % (32 / width))) ++
    (List.range (count - fullRows count width * (32 / width : ℕ)).toNat).map fun i =>
      (fullRows count width, i) := by
  rw [cells, List.range_succ, List.flatMap_append, List.flatMap_singleton, ← fullRows,
    lineCount_last hw, ← flatMap_rows _ (columns_pos hw)]
  refine congrArg (· ++ _) (List.flatMap_congr fun t ht => ?_)
  rw [lineCount_full hw (List.mem_range.1 ht), Int.toNat_natCast]

/-- The addresses go up by a width from round to round. -/
theorem map_cellAddr (start : ℤ) :
    ((cells count width).map fun cell => cellAddr start width cell.1 cell.2) =
      (List.range (valueCount count width)).map fun k : ℕ => start + k * width := by
  have hfull : ∀ k : ℕ, cellAddr start width (k / (32 / width)) (k % (32 / width)) =
      start + k * width := fun k => by
    rw [cellAddr]
    rcases hw with rfl | rfl | rfl <;> omega
  have hlast : ∀ i : ℕ, cellAddr start width (fullRows count width) i =
      start + (fullRows count width * (32 / width) + i : ℕ) * width := fun i => by
    rw [cellAddr]
    rcases hw with rfl | rfl | rfl <;> omega
  rw [cells_split hw, valueCount, List.range_add, List.map_append, List.map_append, List.map_map,
    List.map_map, List.map_map]
  congr 1
  · exact List.map_congr_left fun k _ => hfull k
  · exact List.map_congr_left fun i _ => hlast i

/-- A count that is not negative is the number of values. -/
theorem valueCount_of_nonneg (h : 0 ≤ count) : valueCount count width = count.toNat := by
  have hle : int32 (count * width) ≤ count * width ∨ int32 (count * width) < 0 := by
    rw [int32_def]
    rcases hw with rfl | rfl | rfl <;> split_ifs <;> omega
  have hrows := fullRows_eq count width
  rw [valueCount]
  rcases hw with rfl | rfl | rfl <;> omega

end Rows

/-- The rows are full up to the last where the bytes do not overflow. -/
theorem cells_eq {width n : ℕ} (hw : width = 1 ∨ width = 2 ∨ width = 4)
    (hlt : n * width < 2 ^ 31) :
    cells n width = (List.range n).map fun k => (k / (32 / width), k % (32 / width)) := by
  have hbytes : int32 ((n : ℤ) * width) = (n * width : ℕ) := by
    rw [int32_of_lt (by omega) (by exact_mod_cast hlt)]
    norm_cast
  have hrows : fullRows n width = n * width / 32 := by
    rw [fullRows_eq, hbytes]
    omega
  have hn : n = fullRows n width * (32 / width) + (n - fullRows n width * (32 / width)) := by
    rw [hrows]
    rcases hw with rfl | rfl | rfl <;> omega
  have hlast : (n - fullRows n width * (32 / width : ℕ) : ℤ).toNat =
      n - fullRows n width * (32 / width) := by
    rw [← Nat.cast_mul]
    omega
  rw [cells_split hw, hlast]
  conv_rhs => rw [hn, List.range_add, List.map_append, List.map_map]
  refine congrArg _ (List.map_congr_left fun i hi => ?_)
  have hi := List.mem_range.1 hi
  rw [hrows] at hi ⊢
  refine Prod.ext ?_ ?_ <;> rcases hw with rfl | rfl | rfl <;> dsimp only [Function.comp] <;> omega

end LxToolset
