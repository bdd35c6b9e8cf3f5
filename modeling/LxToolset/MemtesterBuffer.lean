import LxToolset.Memtester

/-!
# The buffer of memtester

`main` takes less and less memory until `malloc` and `mlock` agree. It moves a block that does not
begin a page down to the beginning of its page, and after `EPERM` keeps the address of the block
that it gave back. However the system answers, the loop ends, and the region that it hands to the
tests lies in the block that is held iff it begins with it (`acquire_region`); what the tests rely
on is true of the region in any case (`dvd_of_acquire`).
-/

namespace LxToolset

/-- What `mlock` returns, and with which `errno`. -/
inductive MlockResult where
  | locked
  | enomem
  | eperm
  | failed
  deriving DecidableEq

/-- The answers of the system, call after call. `malloc` returns 0 for `NULL`. -/
structure MemtesterOs where
  malloc : ℕ → BitVec 32 → BitVec 32
  mlock : ℕ → BitVec 32 → BitVec 32 → MlockResult

/-- The variables of the loops of `main`, how often the system was asked, and what was given
back. -/
structure Acquisition where
  wantbytes : BitVec 32
  buf : BitVec 32
  aligned : BitVec 32
  bufsize : BitVec 32
  doMlock : Bool
  doneMem : Bool
  mallocs : ℕ
  mlocks : ℕ
  freed : List (BitVec 32)
  deriving DecidableEq

namespace Acquisition

variable (os : MemtesterOs) (pagesize : BitVec 32)

/-- `while (!buf && wantbytes)`, at most `fuel` times. -/
def allocate : ℕ → Acquisition → Option Acquisition
  | 0, _ => none
  | fuel + 1, m =>
    if m.buf = 0 ∧ m.wantbytes ≠ 0 then
      let buf := os.malloc m.mallocs m.wantbytes
      allocate fuel { m with
        buf, mallocs := m.mallocs + 1
        wantbytes := if buf = 0 then m.wantbytes - pagesize else m.wantbytes }
    else some m

/-- The address and the size for `mlock`. -/
def align (m : Acquisition) : Acquisition :=
  let aligned := if m.buf % pagesize ≠ 0 then m.buf &&& ~~~(pagesize - 1) else m.buf
  { m with aligned, bufsize := m.wantbytes - (aligned - m.buf) }

/-- What is done about the answer of `mlock`. -/
def locked (wantbytesOrig : BitVec 32) (m : Acquisition) : MlockResult → Acquisition
  | .enomem => { m with freed := m.buf :: m.freed, buf := 0, wantbytes := m.wantbytes - pagesize }
  | .eperm =>
    { m with doMlock := false, freed := m.buf :: m.freed, buf := 0, wantbytes := wantbytesOrig }
  | .failed => { m with doMlock := false, doneMem := true }
  | .locked => { m with doneMem := true }

/-- The rest of the outer loop. -/
def lock (wantbytesOrig : BitVec 32) (m : Acquisition) : Acquisition :=
  if m.doMlock then
    let m := m.align pagesize
    locked pagesize wantbytesOrig { m with mlocks := m.mlocks + 1 }
      (os.mlock m.mlocks m.aligned m.bufsize)
  else { m with bufsize := m.wantbytes, doneMem := true }

/-- `while (!done_mem)`. The inner loop may go on as long as the outer one. -/
def acquire (wantbytesOrig : BitVec 32) : ℕ → Acquisition → Option Acquisition
  | 0, _ => none
  | fuel + 1, m =>
    if m.doneMem then some m
    else do
      let m ← allocate os pagesize fuel m
      acquire wantbytesOrig fuel (lock os pagesize wantbytesOrig m)

/-- Before the loop. `aligned` and `bufsize` are not set yet. -/
def start (wantbytes : BitVec 32) : Acquisition :=
  ⟨wantbytes, 0, 0, 0, true, false, 0, 0, []⟩

/-! ## Pages -/

/-- The beginning of the page of `x`. -/
def page (k : ℕ) (x : BitVec 32) : BitVec 32 :=
  x &&& ~~~(BitVec.ofNat 32 (2 ^ k) - 1)

theorem ofNat_two_pow_sub_one {k : ℕ} (hk : k < 32) :
    BitVec.ofNat 32 (2 ^ k) - 1 = BitVec.ofNat 32 (2 ^ k - 1) := by
  have hlt : 2 ^ k < 2 ^ 32 := Nat.pow_lt_pow_right (by decide) hk
  have hpos : 0 < 2 ^ k := Nat.two_pow_pos k
  have hone : (1 : BitVec 32).toNat = 1 := rfl
  apply BitVec.eq_of_toNat_eq
  rw [BitVec.toNat_sub, BitVec.toNat_ofNat, BitVec.toNat_ofNat, hone, Nat.mod_eq_of_lt hlt]
  omega

theorem toNat_page {k : ℕ} (hk : k < 32) (x : BitVec 32) :
    (page k x).toNat = x.toNat - x.toNat % 2 ^ k := by
  have hshift : page k x = (x >>> k) <<< k := by
    refine BitVec.eq_of_getLsbD_eq fun i hi => ?_
    rw [page, ofNat_two_pow_sub_one hk, BitVec.getLsbD_and, BitVec.getLsbD_not,
      BitVec.getLsbD_ofNat, Nat.testBit_two_pow_sub_one, BitVec.getLsbD_shiftLeft,
      BitVec.getLsbD_ushiftRight]
    by_cases h : i < k
    · simp [h]
    · simp [h, hi, Nat.add_sub_cancel' (Nat.le_of_not_lt h)]
  have hle : x.toNat / 2 ^ k * 2 ^ k ≤ x.toNat := Nat.div_mul_le_self ..
  have hmod := Nat.div_add_mod' x.toNat (2 ^ k)
  rw [hshift, BitVec.toNat_shiftLeft, BitVec.toNat_ushiftRight, Nat.shiftLeft_eq,
    Nat.shiftRight_eq_div_pow, Nat.mod_eq_of_lt (hle.trans_lt x.isLt)]
  omega

/-- What the loop calls aligned is the beginning of the page of `buf` in any case. -/
theorem ite_page {k : ℕ} (hk : k < 32) (x : BitVec 32) :
    (if x % BitVec.ofNat 32 (2 ^ k) ≠ 0 then x &&& ~~~(BitVec.ofNat 32 (2 ^ k) - 1) else x) =
      page k x := by
  have hlt : 2 ^ k < 2 ^ 32 := Nat.pow_lt_pow_right (by decide) hk
  split_ifs with h
  · rfl
  · have hnat := congrArg BitVec.toNat (not_not.1 h)
    rw [BitVec.toNat_umod, BitVec.toNat_ofNat, Nat.mod_eq_of_lt hlt] at hnat
    apply BitVec.eq_of_toNat_eq
    rw [toNat_page hk, hnat]
    rfl

/-! ## The region -/

section Region

variable {os : MemtesterOs} {k fuel : ℕ} {orig pagesize : BitVec 32} {m m' : Acquisition}

/-- What the loop hands to the tests: the block with what lies before it in its page, or as many
bytes as the block has, from the page of a block that was given back. -/
def Region (k : ℕ) (m : Acquisition) : Prop :=
  m.aligned = page k m.buf ∧ m.bufsize = m.wantbytes - (m.aligned - m.buf) ∨
    m.doMlock = false ∧ m.bufsize = m.wantbytes ∧ ∃ p ∈ m.freed, m.aligned = page k p

/-- Between two passes no block is held, and a block that could not be locked was given back. -/
structure Between (k : ℕ) (m : Acquisition) : Prop where
  region : m.doneMem = true → Region k m
  buf : m.doneMem = false → m.buf = 0
  unlocked : m.doneMem = false → m.doMlock = false → ∃ p ∈ m.freed, m.aligned = page k p

/-- `malloc` is asked, for less and less. -/
structure Allocated (k : ℕ) (m m' : Acquisition) : Prop where
  aligned : m'.aligned = m.aligned
  doMlock : m'.doMlock = m.doMlock
  doneMem : m'.doneMem = m.doneMem
  freed : m'.freed = m.freed
  null : m'.buf = 0 → m'.wantbytes = 0
  size : ∀ q, m.wantbytes.toNat = 2 ^ k * q → ∃ q' ≤ q, m'.wantbytes.toNat = 2 ^ k * q'

theorem sub_pagesize {q : ℕ} {w : BitVec 32} (hk : k < 32) (hw : w.toNat = 2 ^ k * q)
    (hne : w ≠ 0) : (w - BitVec.ofNat 32 (2 ^ k)).toNat = 2 ^ k * (q - 1) ∧ q ≠ 0 := by
  have hlt : 2 ^ k < 2 ^ 32 := Nat.pow_lt_pow_right (by decide) hk
  have hq : q ≠ 0 := by
    rintro rfl
    exact hne (BitVec.eq_of_toNat_eq (by simpa using hw))
  obtain ⟨p, rfl⟩ := Nat.exists_eq_succ_of_ne_zero hq
  have hle : (BitVec.ofNat 32 (2 ^ k)).toNat ≤ w.toNat := by
    rw [BitVec.toNat_ofNat, Nat.mod_eq_of_lt hlt, hw]
    exact Nat.le_mul_of_pos_right _ p.succ_pos
  refine ⟨?_, hq⟩
  rw [BitVec.toNat_sub_of_le hle, hw, BitVec.toNat_ofNat, Nat.mod_eq_of_lt hlt, Nat.mul_succ,
    Nat.add_sub_cancel, Nat.succ_sub_one]

theorem allocated_of_allocate (hk : k < 32)
    (h : allocate os (BitVec.ofNat 32 (2 ^ k)) fuel m = some m') : Allocated k m m' := by
  induction fuel generalizing m with
  | zero => exact absurd h (by simp [allocate])
  | succ fuel ih =>
    rw [allocate] at h
    split_ifs at h with hc
    · have hih := ih h
      refine ⟨hih.aligned, hih.doMlock, hih.doneMem, hih.freed, hih.null, fun q hq => ?_⟩
      by_cases hb : os.malloc m.mallocs m.wantbytes = 0
      · obtain ⟨hsub, -⟩ := sub_pagesize hk hq hc.2
        obtain ⟨q', hle, hq'⟩ := hih.size (q - 1) (by simpa only [if_pos hb] using hsub)
        exact ⟨q', hle.trans (Nat.sub_le ..), hq'⟩
      · exact hih.size q (by simpa only [if_neg hb] using hq)
    · obtain rfl := Option.some_inj.1 h
      exact ⟨rfl, rfl, rfl, rfl, fun hb => not_not.1 fun hw => hc ⟨hb, hw⟩,
        fun q hq => ⟨q, le_rfl, hq⟩⟩

theorem lock_of_doMlock (hl : m.doMlock = true) :
    lock os pagesize orig m = locked pagesize orig
      { m.align pagesize with mlocks := m.mlocks + 1 }
      (os.mlock m.mlocks (m.align pagesize).aligned (m.align pagesize).bufsize) :=
  if_pos hl

theorem between_locked (hgo : m.doneMem = false) (hl : m.doMlock = true)
    (haligned : m.aligned = page k m.buf) (hsize : m.bufsize = m.wantbytes - (m.aligned - m.buf))
    (r : MlockResult) : Between k (locked pagesize orig m r) := by
  cases r with
  | locked => exact ⟨fun _ => .inl ⟨haligned, hsize⟩, by simp [locked], by simp [locked]⟩
  | enomem => exact ⟨by simp [locked, hgo], fun _ => rfl, by simp [locked, hl]⟩
  | eperm =>
    exact ⟨by simp [locked, hgo], fun _ => rfl, fun _ _ => ⟨m.buf, List.mem_cons_self, haligned⟩⟩
  | failed => exact ⟨fun _ => .inl ⟨haligned, hsize⟩, by simp [locked], by simp [locked]⟩

theorem Between.lock (os : MemtesterOs) (orig : BitVec 32) (hk : k < 32) (h : Between k m)
    (hm : Allocated k m m') (hgo : m.doneMem = false) :
    Between k (lock os (BitVec.ofNat 32 (2 ^ k)) orig m') := by
  have hgo' : m'.doneMem = false := hm.doneMem.trans hgo
  by_cases hl : m'.doMlock = true
  · rw [lock_of_doMlock hl]
    refine between_locked ?_ ?_ ?_ rfl _
    · exact hgo'
    · exact hl
    · exact ite_page hk m'.buf
  · rw [Acquisition.lock, if_neg hl]
    have hl' : m'.doMlock = false := by simpa using hl
    have hstale : ∃ p ∈ m'.freed, m'.aligned = page k p := by
      rw [hm.freed, hm.aligned]
      exact h.unlocked hgo (hm.doMlock ▸ hl')
    exact ⟨fun _ => .inr ⟨hl', rfl, hstale⟩, by simp, by simp⟩

/-- However the system answers, the loop hands on one of two kinds of region. -/
theorem region_of_acquire (hk : k < 32) (h : Between k m)
    (hm : acquire os (BitVec.ofNat 32 (2 ^ k)) orig fuel m = some m') : Region k m' := by
  induction fuel generalizing m with
  | zero => exact absurd hm (by simp [acquire])
  | succ fuel ih =>
    rw [acquire] at hm
    split_ifs at hm with hd
    · obtain rfl := Option.some_inj.1 hm
      exact h.region hd
    · obtain ⟨m₁, halloc, hrest⟩ := Option.bind_eq_some_iff.1 hm
      have hm₁ := allocated_of_allocate hk halloc
      exact ih (Between.lock os orig hk h hm₁ (by simpa using hd)) hrest

theorem between_start : Between k (start orig) :=
  ⟨fun h => absurd h (by simp [start]), fun _ => rfl, fun _ h => absurd h (by simp [start])⟩

/-- The addresses from `a` on, `n` bytes of them. -/
def bytesFrom (a n : BitVec 32) : Set ℕ :=
  Set.Ico a.toNat (a.toNat + n.toNat)

theorem toNat_bufsize (hk : k < 32) (haligned : m.aligned = page k m.buf)
    (hsize : m.bufsize = m.wantbytes - (m.aligned - m.buf))
    (hblock : m.buf.toNat + m.wantbytes.toNat < 2 ^ 32) :
    m.aligned.toNat ≤ m.buf.toNat ∧
      m.aligned.toNat + m.bufsize.toNat = m.buf.toNat + m.wantbytes.toNat := by
  have hle := Nat.mod_le m.buf.toNat (2 ^ k)
  have hpage : m.aligned.toNat = m.buf.toNat - m.buf.toNat % 2 ^ k := by
    rw [haligned, toNat_page hk]
  have hsub : m.bufsize.toNat = m.wantbytes.toNat + m.buf.toNat % 2 ^ k := by
    rw [hsize, BitVec.toNat_sub, BitVec.toNat_sub]
    omega
  omega

/-- The region of the tests lies in the block that `malloc` returned iff it begins with it. -/
theorem region_subset_iff (hk : k < 32)
    (h : acquire os (BitVec.ofNat 32 (2 ^ k)) orig fuel (start orig) = some m)
    (hblock : m.buf.toNat + m.wantbytes.toNat < 2 ^ 32) (hne : m.bufsize ≠ 0) :
    bytesFrom m.aligned m.bufsize ⊆ bytesFrom m.buf m.wantbytes ↔ m.aligned = m.buf := by
  have hpos : 0 < m.bufsize.toNat :=
    Nat.pos_of_ne_zero fun h0 => hne (BitVec.eq_of_toNat_eq h0)
  rw [bytesFrom, bytesFrom, Set.Ico_subset_Ico_iff (by omega), ← BitVec.toNat_inj]
  rcases region_of_acquire hk between_start h with ⟨haligned, hsize⟩ | ⟨-, hsize, -⟩
  · obtain ⟨hle, hend⟩ := toNat_bufsize hk haligned hsize hblock
    omega
  · rw [hsize]
    omega

/-! ## The end of the loops -/

theorem exists_allocate (os : MemtesterOs) {q : ℕ} (hk : k < 32)
    (hw : m.wantbytes.toNat = 2 ^ k * q) (hfuel : q + 1 < fuel) :
    ∃ m', allocate os (BitVec.ofNat 32 (2 ^ k)) fuel m = some m' := by
  induction fuel generalizing m q with
  | zero => omega
  | succ fuel ih =>
    rw [allocate]
    split_ifs with hc
    · obtain ⟨hsub, hq⟩ := sub_pagesize hk hw hc.2
      by_cases hb : os.malloc m.mallocs m.wantbytes = 0
      · exact ih (q := q - 1) (by simpa only [if_pos hb] using hsub) (by omega)
      · obtain ⟨f, rfl⟩ := Nat.exists_eq_add_of_lt (by omega : 0 < fuel)
        rw [Nat.zero_add, allocate, if_neg fun h => hb h.1]
        exact ⟨_, rfl⟩
    · exact ⟨m, rfl⟩

/-- A block is held iff there is something left to take. -/
theorem null_iff_of_allocate (hb : m.buf = 0)
    (h : allocate os (BitVec.ofNat 32 (2 ^ k)) fuel m = some m') :
    m'.buf = 0 ↔ m'.wantbytes = 0 := by
  have hinv : ∀ fuel m, (m.wantbytes = 0 → m.buf = 0) →
      allocate os (BitVec.ofNat 32 (2 ^ k)) fuel m = some m' →
        (m'.buf = 0 ↔ m'.wantbytes = 0) := by
    intro fuel
    induction fuel with
    | zero => exact fun m _ h => absurd h (by simp [allocate])
    | succ fuel ih =>
      intro m hm h
      rw [allocate] at h
      split_ifs at h with hc
      · refine ih _ (fun hw => ?_) h
        by_contra hne
        rw [if_neg hne] at hw
        exact hc.2 hw
      · obtain rfl := Option.some_inj.1 h
        exact ⟨fun hb => not_not.1 fun hw => hc ⟨hb, hw⟩, hm⟩
  exact hinv fuel m (fun _ => hb) h

/-- `mlock`, which accepts no bytes at all, can only ask for less where there are some. -/
theorem wantbytes_ne_zero {a : BitVec 32} {i : ℕ} (hnone : ∀ i a, os.mlock i a 0 = .locked)
    (hb : m.buf = 0 ↔ m.wantbytes = 0)
    (hr : os.mlock i a (m.align pagesize).bufsize = .enomem) : m.wantbytes ≠ 0 := fun h0 => by
  have hsize : (m.align pagesize).bufsize = 0 := by
    simp [align, h0, hb.2 h0]
  rw [hsize, hnone] at hr
  exact MlockResult.noConfusion hr

theorem acquire_of_doneMem (hd : m.doneMem = true) (hfuel : 0 < fuel) :
    acquire os pagesize orig fuel m = some m := by
  obtain ⟨f, rfl⟩ := Nat.exists_eq_add_of_lt hfuel
  rw [Nat.zero_add, acquire, if_pos hd]

/-- Without `mlock` one pass is enough. -/
theorem exists_acquire_of_unlocked {q : ℕ} (hk : k < 32) (hw : m.wantbytes.toNat = 2 ^ k * q)
    (hd : m.doneMem = false) (hl : m.doMlock = false) (hfuel : q + 2 < fuel) :
    ∃ m', acquire os (BitVec.ofNat 32 (2 ^ k)) orig fuel m = some m' := by
  obtain ⟨f, rfl⟩ := Nat.exists_eq_add_of_lt (by omega : 0 < fuel)
  obtain ⟨m₁, hm₁⟩ := exists_allocate os hk hw (by omega : q + 1 < 0 + f)
  have hl₁ : m₁.doMlock = false := (allocated_of_allocate hk hm₁).doMlock.trans hl
  have hlock : lock os (BitVec.ofNat 32 (2 ^ k)) orig m₁ =
      { m₁ with bufsize := m₁.wantbytes, doneMem := true } := if_neg (by simp [hl₁])
  rw [acquire, if_neg (by simp [hd]), hm₁]
  exact ⟨_, (congrArg _ hlock).trans (acquire_of_doneMem rfl (by omega))⟩

/-- The loop ends: `mlock` accepts no bytes at all, and after `EPERM` it is not asked again. -/
theorem exists_acquire (os : MemtesterOs) {q n : ℕ} (hk : k < 32) (horig : orig.toNat = 2 ^ k * n)
    (hnone : ∀ i a, os.mlock i a 0 = .locked) (h : Between k m) (hd : m.doneMem = false)
    (hw : m.wantbytes.toNat = 2 ^ k * q) (hfuel : q + n + 4 < fuel) :
    ∃ m', acquire os (BitVec.ofNat 32 (2 ^ k)) orig fuel m = some m' := by
  induction q using Nat.strong_induction_on generalizing m fuel with
  | h q ih =>
    by_cases hl : m.doMlock = false
    · exact exists_acquire_of_unlocked hk hw hd hl (by omega)
    obtain ⟨f, rfl⟩ := Nat.exists_eq_add_of_lt (by omega : 0 < fuel)
    obtain ⟨m₁, hm₁⟩ := exists_allocate os hk hw (by omega : q + 1 < 0 + f)
    have halloc := allocated_of_allocate hk hm₁
    have hd₁ : m₁.doneMem = false := halloc.doneMem.trans hd
    obtain ⟨q₁, hq₁, hw₁⟩ := halloc.size q hw
    have hbetween := Between.lock os orig hk h halloc hd
    have hl₁ : m₁.doMlock = true := halloc.doMlock.trans (by simpa using hl)
    rw [acquire, if_neg (by simp [hd]), hm₁]
    change ∃ m', acquire os _ orig _ (lock os _ orig m₁) = some m'
    rw [lock_of_doMlock hl₁] at hbetween ⊢
    rcases hr : os.mlock m₁.mlocks (m₁.align (BitVec.ofNat 32 (2 ^ k))).aligned
      (m₁.align (BitVec.ofNat 32 (2 ^ k))).bufsize with - | - | - | -
    · exact ⟨_, acquire_of_doneMem rfl (by omega)⟩
    · have hne := wantbytes_ne_zero hnone (null_iff_of_allocate (h.buf hd) hm₁) hr
      obtain ⟨hsub, hq⟩ := sub_pagesize hk hw₁ hne
      rw [hr] at hbetween
      exact ih (q₁ - 1) (by omega) hbetween hd₁ hsub (by omega)
    · exact exists_acquire_of_unlocked hk horig hd₁ rfl (by omega)
    · exact ⟨_, acquire_of_doneMem rfl (by omega)⟩

/-- However the system answers, the loop ends, and hands on a region that lies in the block iff it
begins with it: either the block and what lies before it in its page, or the page of a block that
was given back, with the size of the block that is held. -/
theorem acquire_region {n : ℕ} (hk : k < 32) (horig : orig.toNat = 2 ^ k * n)
    (hnone : ∀ i a, os.mlock i a 0 = .locked) (hfuel : 2 * n + 4 < fuel) :
    ∃ m, acquire os (BitVec.ofNat 32 (2 ^ k)) orig fuel (start orig) = some m ∧ Region k m ∧
      (m.buf.toNat + m.wantbytes.toNat < 2 ^ 32 → m.bufsize ≠ 0 →
        (bytesFrom m.aligned m.bufsize ⊆ bytesFrom m.buf m.wantbytes ↔ m.aligned = m.buf)) := by
  obtain ⟨m, hm⟩ := exists_acquire os (m := start orig) hk horig hnone between_start rfl
    (horig : (start orig).wantbytes.toNat = _) (by omega : n + n + 4 < fuel)
  exact ⟨m, hm, region_of_acquire hk between_start hm, region_subset_iff hk hm⟩

/-- `mlock` refuses the first block, and `malloc` then gives another one. -/
def refusingOs : MemtesterOs where
  malloc i _ := if i = 0 then 0x10008 else 0x20008
  mlock _ _ n := if n = 0 then .locked else .eperm

/-- The tests run on the first block, that was given back, and not on the one that is held. -/
theorem acquire_region_refusingOs :
    ∃ m, acquire refusingOs 4096 0x100000 517 (start 0x100000) = some m ∧ Region 12 m ∧
      m.freed = [0x10008] ∧ m.aligned = 0x10000 ∧
      ¬ bytesFrom m.aligned m.bufsize ⊆ bytesFrom m.buf m.wantbytes := by
  have hrun : (acquire refusingOs 4096 0x100000 517 (start 0x100000)).map
      (fun m => (m.freed, m.aligned, m.bufsize, m.buf, m.wantbytes)) =
        some ([0x10008], 0x10000, 0x100000, 0x20008, 0x100000) := by
    decide +kernel
  obtain ⟨m, hm, hregion, hsubset⟩ := @acquire_region refusingOs 12 517 0x100000 256 (by decide)
    (by decide) (fun _ _ => rfl) (by decide)
  have hpage : BitVec.ofNat 32 (2 ^ 12) = 4096 := rfl
  rw [hpage] at hm
  rw [hm] at hrun
  simp only [Option.map_some, Option.some.injEq, Prod.mk.injEq] at hrun
  obtain ⟨hfreed, haligned, hbufsize, hbuf, hwantbytes⟩ := hrun
  refine ⟨m, hm, hregion, hfreed, haligned, ?_⟩
  rw [hsubset (by rw [hbuf, hwantbytes]; decide) (by rw [hbufsize]; decide), haligned, hbuf]
  decide

/-! ## The region as the tests take it -/

/-- The sizes are whole pages, and blocks begin at multiples of 8. -/
structure Multiples (k : ℕ) (m : Acquisition) : Prop where
  pages : ∃ q, m.wantbytes.toNat = 2 ^ k * q
  block : 8 ∣ m.buf.toNat

theorem Multiples.allocate (hk : k < 32) (hmalloc : ∀ i w, 8 ∣ (os.malloc i w).toNat)
    (h : Multiples k m) (hm : allocate os (BitVec.ofNat 32 (2 ^ k)) fuel m = some m') :
    Multiples k m' := by
  induction fuel generalizing m with
  | zero => exact absurd hm (by simp [Acquisition.allocate])
  | succ fuel ih =>
    rw [Acquisition.allocate] at hm
    split_ifs at hm with hc
    · refine ih ⟨?_, hmalloc _ _⟩ hm
      obtain ⟨q, hq⟩ := h.pages
      by_cases hb : os.malloc m.mallocs m.wantbytes = 0
      · exact ⟨q - 1, by simpa only [if_pos hb] using (sub_pagesize hk hq hc.2).1⟩
      · exact ⟨q, by simpa only [if_neg hb] using hq⟩
    · obtain rfl := Option.some_inj.1 hm
      exact h

theorem Multiples.lock {n : ℕ} (hk : k < 32) (horig : orig.toNat = 2 ^ k * n)
    (hnone : ∀ i a, os.mlock i a 0 = .locked) (hb : m.buf = 0 ↔ m.wantbytes = 0)
    (h : Multiples k m) : Multiples k (lock os (BitVec.ofNat 32 (2 ^ k)) orig m) := by
  obtain ⟨q, hq⟩ := h.pages
  by_cases hl : m.doMlock = true
  · rw [lock_of_doMlock hl]
    rcases hr : os.mlock m.mlocks (m.align (BitVec.ofNat 32 (2 ^ k))).aligned
      (m.align (BitVec.ofNat 32 (2 ^ k))).bufsize with - | - | - | -
    · exact ⟨⟨q, hq⟩, h.block⟩
    · exact ⟨⟨q - 1, (sub_pagesize hk hq (wantbytes_ne_zero hnone hb hr)).1⟩, dvd_zero 8⟩
    · exact ⟨⟨n, horig⟩, dvd_zero 8⟩
    · exact ⟨⟨q, hq⟩, h.block⟩
  · rw [Acquisition.lock, if_neg hl]
    exact ⟨⟨q, hq⟩, h.block⟩

theorem Multiples.acquire {n : ℕ} (hk : k < 32) (horig : orig.toNat = 2 ^ k * n)
    (hnone : ∀ i a, os.mlock i a 0 = .locked) (hmalloc : ∀ i w, 8 ∣ (os.malloc i w).toNat)
    (hbetween : Between k m) (h : Multiples k m)
    (hm : acquire os (BitVec.ofNat 32 (2 ^ k)) orig fuel m = some m') : Multiples k m' := by
  induction fuel generalizing m with
  | zero => exact absurd hm (by simp [Acquisition.acquire])
  | succ fuel ih =>
    rw [Acquisition.acquire] at hm
    split_ifs at hm with hd
    · obtain rfl := Option.some_inj.1 hm
      exact h
    · have hd' : m.doneMem = false := by simpa using hd
      obtain ⟨m₁, halloc, hrest⟩ := Option.bind_eq_some_iff.1 hm
      exact ih (Between.lock os orig hk hbetween (allocated_of_allocate hk halloc) hd')
        ((h.allocate hk hmalloc halloc).lock hk horig hnone
          (null_iff_of_allocate (hbetween.buf hd') halloc)) hrest

/-- What the tests rely on: the region begins at a multiple of 4 and has a multiple of 8 bytes. -/
theorem dvd_of_acquire {n : ℕ} (hk : k < 32) (hthree : 3 ≤ k) (horig : orig.toNat = 2 ^ k * n)
    (hnone : ∀ i a, os.mlock i a 0 = .locked) (hmalloc : ∀ i w, 8 ∣ (os.malloc i w).toNat)
    (hm : acquire os (BitVec.ofNat 32 (2 ^ k)) orig fuel (start orig) = some m)
    (hblock : m.buf.toNat + m.wantbytes.toNat < 2 ^ 32) :
    4 ∣ m.aligned.toNat ∧ 8 ∣ m.bufsize.toNat := by
  have height : 8 ∣ 2 ^ k := Nat.pow_dvd_pow 2 hthree
  have hmult := Multiples.acquire hk horig hnone hmalloc between_start
    ⟨⟨n, horig⟩, dvd_zero 8⟩ hm
  have hwant : 8 ∣ m.wantbytes.toNat := by
    obtain ⟨q, hq⟩ := hmult.pages
    exact hq ▸ height.mul_right q
  have hpage : ∀ x, 8 ∣ (page k x).toNat := fun x => by
    rw [toNat_page hk]
    exact height.trans (Nat.dvd_sub_mod _)
  rcases region_of_acquire hk between_start hm with ⟨haligned, hsize⟩ | ⟨-, hsize, p, -, haligned⟩
  · obtain ⟨-, hend⟩ := toNat_bufsize hk haligned hsize hblock
    have hstart := haligned ▸ hpage m.buf
    have hblock8 := hmult.block
    omega
  · have hstart := haligned ▸ hpage p
    rw [hsize]
    omega

/-- The region, as the tests take it. -/
def tester {κ : Type*} (m : Acquisition) (ram : Ram (BitVec 32) κ (BitVec 32))
    (rand wide : ℕ → BitVec 32) (hdvd : 4 ∣ m.aligned.toNat ∧ 8 ∣ m.bufsize.toNat)
    (hfits : m.aligned.toNat + m.bufsize.toNat ≤ 2 ^ 32) : Tester κ :=
  ⟨ram, rand, wide, m.aligned.toNat, m.bufsize.toNat, hdvd.1, hdvd.2, hfits⟩

end Region

end Acquisition

end LxToolset
