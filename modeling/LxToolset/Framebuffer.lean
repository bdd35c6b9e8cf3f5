import LxToolset.Ledger
import LxToolset.ShowBitmap

/-!
# fb_init and fb_uninit

`fb_init` opens the framebuffer, maps it, saves its colour map and publishes a `SCREEN`, and
`fb_uninit` undoes this. `fbInit_of_succeeds` and `givesUp_fbInit` say what the two ways out of
`fb_init` leave.

The length of the mapping, the pitch of the SCREEN and the length that is unmapped are three
expressions over the mode of the display. They agree with it, and with each other, for rows without
padding (`initFits_iff`).
-/

namespace LxToolset

/-- What the kernel reports of a display. -/
structure FbMode where
  visual : UInt32
  xres : UInt32
  yres : UInt32
  bitsPerPixel : UInt32
  lineLength : UInt32

/-- What the calls of one `fb_init` return. -/
structure InitEnv where
  fd : ℤ
  fixInfo : Bool
  varInfo : Bool
  mode : FbMode
  mmap : Bool
  mallocColour : Bool
  mallocScreen : Bool

/-- What is acquired and released. -/
inductive FbResource where
  | fd (n : ℤ)
  | mapping (start len : ℕ)
  | heap (block : ℕ)
  deriving DecidableEq

/-- A `SCREEN` on the heap. -/
structure ScreenBlock where
  block : ℕ
  screen : Screen
  start : ℕ

/-- The variables `fb_screen`, `console_fd` and `saved_cmap.red`, the number of mappings and blocks
there have been, and all that was done to the resources. -/
structure FbState where
  fbScreen : Option ScreenBlock
  consoleFd : ℤ
  savedRed : Option ℕ
  next : ℕ
  ops : List (ResourceOp FbResource)

namespace FbState

def initial : FbState :=
  ⟨none, -1, none, 0, []⟩

variable (s : FbState)

def ledger : Ledger FbResource :=
  Ledger.clear.run s.ops

def log (op : ResourceOp FbResource) : FbState :=
  { s with ops := s.ops ++ [op] }

/-- `close(fd)`, which a negative `fd` makes fail. -/
def close (fd : ℤ) : FbState :=
  if fd < 0 then s else s.log (.release (.fd fd))

/-- A mapping of `len` bytes, at `s.next`. -/
def map (len : ℕ) : FbState :=
  { s.log (.acquire (.mapping s.next len)) with next := s.next + 1 }

/-- A block of the heap, at `s.next`. -/
def alloc : FbState :=
  { s.log (.acquire (.heap s.next)) with next := s.next + 1 }

def setScreen (p : Option ScreenBlock) : FbState :=
  { s with fbScreen := p }

def setConsole (fd : ℤ) : FbState :=
  { s with consoleFd := fd }

def setRed (block : ℕ) : FbState :=
  { s with savedRed := some block }

end FbState

/-- `screensize`. -/
def FbMode.screensize (m : FbMode) : UInt32 :=
  m.xres * m.yres * m.bitsPerPixel / 8

/-- The `SCREEN` of a mode. -/
def FbMode.screen (m : FbMode) : Screen :=
  fbScreen m.visual m.xres m.yres m.bitsPerPixel

/-- The end of `fb_init`, from the `malloc` of the SCREEN on. -/
def publishScreen (e : InitEnv) (start : ℕ) (s : FbState) : ℤ × FbState :=
  if e.mallocScreen then (0, s.alloc.setScreen (some ⟨s.next, e.mode.screen, start⟩))
  else
    let s := (s.setScreen none).log (.release (.mapping start e.mode.screensize.toNat))
    (-1, s.close e.fd)

/-- The colour map, and what follows it. -/
def saveColours (e : InitEnv) (start : ℕ) (s : FbState) : ℤ × FbState :=
  if e.mode.visual = fbVisualPseudocolor then
    if e.mallocColour then publishScreen e start (s.alloc.setRed s.next)
    else (-1, s.close e.fd)
  else publishScreen e start s

/-- From the `mmap` on. -/
def mapScreen (e : InitEnv) (s : FbState) : ℤ × FbState :=
  if e.mmap then saveColours e s.next (s.map e.mode.screensize.toNat) else (-1, s.close e.fd)

def fbInit (e : InitEnv) (s : FbState) : ℤ × FbState :=
  if e.fd < 0 then (-1, s.close e.fd)
  else
    let s := s.log (.acquire (.fd e.fd))
    if !e.fixInfo then (-1, s.close e.fd)
    else if !e.varInfo then (-1, s.close e.fd)
    else mapScreen e (s.setConsole e.fd)

/-- `fb_screen->pitch * fb_screen->height`. -/
def unmapLength (scr : Screen) : UInt32 :=
  scr.pitch * scr.height

/-- `free(saved_cmap.red)`. -/
def freeColours (s : FbState) : FbState :=
  match s.savedRed with
  | some block => s.log (.release (.heap block))
  | none => s

/-- `munmap` and `free` of the SCREEN. -/
def freeScreen (s : FbState) : FbState :=
  match s.fbScreen with
  | some p =>
    let s := s.log (.release (.mapping p.start (unmapLength p.screen).toNat))
    s.log (.release (.heap p.block))
  | none => s

def closeConsole (s : FbState) : FbState :=
  if 0 < s.consoleFd then (s.close s.consoleFd).setConsole (-1) else s

def fbUninit (s : FbState) : FbState :=
  closeConsole (freeScreen (freeColours s))

def fbGetScreen (s : FbState) : Option ScreenBlock :=
  s.fbScreen

/-! ## The geometry of the screen -/

/-- No product over the mode is cut off. -/
structure NoWrap (m : FbMode) : Prop where
  pixels : m.xres.toNat * m.yres.toNat < 2 ^ 32
  bits : m.xres.toNat * m.yres.toNat * m.bitsPerPixel.toNat < 2 ^ 32
  row : m.xres.toNat * m.bitsPerPixel.toNat < 2 ^ 32

/-- The SCREEN `p` has the rows of the display, inside the `mapped` bytes, and `unmapped` is all of
these. -/
structure ScreenFits (m : FbMode) (scr : Screen) (mapped unmapped : ℕ) : Prop where
  pitch : scr.pitch = m.lineLength
  covered : scr.pitch.toNat * scr.height.toNat ≤ mapped
  noWrap : NoWrap m
  noWrapSize : scr.pitch.toNat * scr.height.toNat < 2 ^ 32
  unmapped : unmapped = mapped

/-- What was done between two states. -/
def FbState.since (s s' : FbState) : List (ResourceOp FbResource) :=
  s'.ops.drop s.ops.length

def Maps (start len : ℕ) (ops : List (ResourceOp FbResource)) : Prop :=
  .acquire (.mapping start len) ∈ ops

def Unmaps (start len : ℕ) (ops : List (ResourceOp FbResource)) : Prop :=
  .release (.mapping start len) ∈ ops

/-- What a successful `fb_init` publishes fits, with the lengths it maps and `fb_uninit` unmaps. -/
def InitFits (e : InitEnv) (s : FbState) : Prop :=
  ∀ p mapped unmapped, (fbInit e s).1 = 0 → (fbInit e s).2.fbScreen = some p →
    Maps p.start mapped (s.since (fbInit e s).2) →
    Unmaps p.start unmapped ((fbInit e s).2.since (fbUninit (fbInit e s).2)) →
    ScreenFits e.mode p.screen mapped unmapped

/-- Every call of `fb_init` succeeds. -/
structure InitEnv.Succeeds (e : InitEnv) : Prop where
  fd : 0 ≤ e.fd
  fixInfo : e.fixInfo
  varInfo : e.varInfo
  mmap : e.mmap
  mallocColour : e.mode.visual = fbVisualPseudocolor → e.mallocColour
  mallocScreen : e.mallocScreen


/-- `fb_init` gives up once the framebuffer is mapped, or has been, for a display with a colour
map. -/
structure InitEnv.Leaks (e : InitEnv) : Prop where
  fd : 0 ≤ e.fd
  fixInfo : e.fixInfo
  varInfo : e.varInfo
  mmap : e.mmap
  visual : e.mode.visual = fbVisualPseudocolor
  malloc : ¬ (e.mallocColour ∧ e.mallocScreen)

/-- What a call that returns `-1` does from the state `s`. -/
structure GivesUp (e : InitEnv) (s : FbState) (r : ℤ × FbState) : Prop where
  ret : r.1 = -1
  screen : r.2.fbScreen = s.fbScreen ∨ r.2.fbScreen = none
  clean : ¬ e.Leaks → r.2.ledger = s.ledger
  leaks : e.Leaks → r.2.ledger.held ≠ []

section Init

variable {e : InitEnv} {s : FbState} {op : ResourceOp FbResource} {fd : ℤ} {start len : ℕ}

namespace FbState

@[simp] theorem ledger_log : (s.log op).ledger = s.ledger.apply op := by
  rw [ledger, log, Ledger.run_append]
  rfl

@[simp] theorem ledger_map :
    (s.map len).ledger = s.ledger.apply (.acquire (.mapping s.next len)) :=
  ledger_log

@[simp] theorem ledger_alloc : s.alloc.ledger = s.ledger.apply (.acquire (.heap s.next)) :=
  ledger_log

@[simp] theorem ledger_setScreen {p : Option ScreenBlock} : (s.setScreen p).ledger = s.ledger :=
  rfl

@[simp] theorem ledger_setConsole : (s.setConsole fd).ledger = s.ledger :=
  rfl

@[simp] theorem ledger_setRed {block : ℕ} : (s.setRed block).ledger = s.ledger :=
  rfl

theorem ledger_close (hfd : 0 ≤ fd) : (s.close fd).ledger = s.ledger.apply (.release (.fd fd)) := by
  rw [close, if_neg (not_lt.mpr hfd), ledger_log]

@[simp] theorem fbScreen_close : (s.close fd).fbScreen = s.fbScreen := by
  rw [close]
  split_ifs <;> rfl

end FbState

/-- A successful call publishes the SCREEN of its mode, and only acquires. -/
theorem fbInit_of_succeeds (h : e.Succeeds) (s : FbState) : ∃ block colours,
    (∀ op ∈ colours, ∃ b, op = .acquire (.heap b)) ∧ (fbInit e s).1 = 0 ∧
    (fbInit e s).2.fbScreen = some ⟨block, e.mode.screen, s.next⟩ ∧
    (fbInit e s).2.ops = s.ops ++ (.acquire (.fd e.fd) ::
      .acquire (.mapping s.next e.mode.screensize.toNat) :: colours ++
        [.acquire (.heap block)]) := by
  unfold fbInit
  rw [if_neg (not_lt.mpr h.fd)]
  simp only [h.fixInfo, h.varInfo, mapScreen, h.mmap, saveColours, publishScreen, h.mallocScreen]
  by_cases hv : e.mode.visual = fbVisualPseudocolor
  · refine ⟨s.next + 2, [.acquire (.heap (s.next + 1))], ?_, ?_⟩
    · exact fun op hop => ⟨_, List.mem_singleton.mp hop⟩
    · simp [hv, h.mallocColour hv, FbState.alloc, FbState.map, FbState.log, FbState.setConsole,
        FbState.setScreen, FbState.setRed]
  · refine ⟨s.next + 1, [], ?_, ?_⟩
    · exact fun op hop => absurd hop List.not_mem_nil
    · simp [hv, FbState.alloc, FbState.map, FbState.log, FbState.setConsole, FbState.setScreen]

/-- From the mapping on, with the descriptor in hand. -/
theorem givesUp_mapScreen (h : ¬ e.Succeeds) (hfd : 0 ≤ e.fd) (hfix : e.fixInfo)
    (hvar : e.varInfo) :
    GivesUp e s (mapScreen e ((s.log (.acquire (.fd e.fd))).setConsole e.fd)) := by
  unfold mapScreen
  by_cases hmap : e.mmap
  · rw [if_pos hmap, saveColours]
    by_cases hv : e.mode.visual = fbVisualPseudocolor
    · rw [if_pos hv]
      by_cases hcol : e.mallocColour
      · have hscr : ¬ e.mallocScreen := fun hscr => h ⟨hfd, hfix, hvar, hmap, fun _ => hcol, hscr⟩
        have hleaks : e.Leaks := ⟨hfd, hfix, hvar, hmap, hv, fun hm => hscr hm.2⟩
        rw [if_pos hcol, publishScreen, if_neg hscr]
        refine ⟨rfl, .inr FbState.fbScreen_close, fun hno => absurd hleaks hno, fun _ => ?_⟩
        -- the colours are left
        simp [FbState.ledger_close hfd, Ledger.apply]
      · have hleaks : e.Leaks := ⟨hfd, hfix, hvar, hmap, hv, fun hm => hcol hm.1⟩
        rw [if_neg hcol]
        refine ⟨rfl, .inl FbState.fbScreen_close, fun hno => absurd hleaks hno, fun _ => ?_⟩
        -- the mapping is left
        simp [FbState.ledger_close hfd, Ledger.apply]
    · have hscr : ¬ e.mallocScreen :=
        fun hscr => h ⟨hfd, hfix, hvar, hmap, fun hcolour => absurd hcolour hv, hscr⟩
      rw [if_neg hv, publishScreen, if_neg hscr]
      refine ⟨rfl, .inr FbState.fbScreen_close, fun _ => ?_, fun hl => absurd hl.visual hv⟩
      simp only [FbState.ledger_close hfd, FbState.ledger_log, FbState.ledger_setScreen,
        FbState.ledger_map, FbState.ledger_setConsole, Ledger.apply_acquire_release]
  · rw [if_neg hmap]
    refine ⟨rfl, .inl FbState.fbScreen_close, fun _ => ?_, fun hl => absurd hl.mmap hmap⟩
    rw [FbState.ledger_close hfd, FbState.ledger_setConsole, FbState.ledger_log,
      Ledger.apply_acquire_release]

theorem givesUp_fbInit (h : ¬ e.Succeeds) : GivesUp e s (fbInit e s) := by
  unfold fbInit
  by_cases hneg : e.fd < 0
  · rw [if_pos hneg, FbState.close, if_pos hneg]
    exact ⟨rfl, .inl rfl, fun _ => rfl, fun hl => absurd hl.fd (not_le.mpr hneg)⟩
  rw [if_neg hneg]
  have hfd : 0 ≤ e.fd := not_lt.mp hneg
  have hclosed : ((s.log (.acquire (.fd e.fd))).close e.fd).ledger = s.ledger := by
    rw [FbState.ledger_close hfd, FbState.ledger_log, Ledger.apply_acquire_release]
  have hscreen : ((s.log (.acquire (.fd e.fd))).close e.fd).fbScreen = s.fbScreen :=
    FbState.fbScreen_close
  cases hfix : e.fixInfo with
  | false => exact ⟨rfl, .inl hscreen, fun _ => hclosed, fun hl => by simp [hl.fixInfo] at hfix⟩
  | true =>
    cases hvar : e.varInfo with
    | false => exact ⟨rfl, .inl hscreen, fun _ => hclosed, fun hl => by simp [hl.varInfo] at hvar⟩
    | true => exact givesUp_mapScreen h hfd hfix hvar

theorem fbInit_eq_zero_iff : (fbInit e s).1 = 0 ↔ e.Succeeds := by
  constructor
  · intro hret
    by_contra h
    rw [(givesUp_fbInit h).ret] at hret
    exact absurd hret (by decide)
  · intro h
    obtain ⟨-, -, -, hret, -⟩ := fbInit_of_succeeds h s
    exact hret

theorem exists_ops_freeColours (s : FbState) (start len : ℕ) :
    ∃ ops, (freeColours s).ops = s.ops ++ ops ∧ (freeColours s).fbScreen = s.fbScreen ∧
      ¬ Unmaps start len ops := by
  unfold freeColours Unmaps
  cases s.savedRed with
  | none => exact ⟨[], by simp⟩
  | some block => exact ⟨[_], rfl, rfl, by simp⟩

theorem exists_ops_closeConsole (s : FbState) (start len : ℕ) :
    ∃ ops, (closeConsole s).ops = s.ops ++ ops ∧ ¬ Unmaps start len ops := by
  unfold closeConsole FbState.close Unmaps
  split_ifs
  · exact ⟨[], by simp [FbState.setConsole]⟩
  · exact ⟨[_], rfl, by simp⟩
  · exact ⟨[], by simp⟩

/-- `fb_uninit` unmaps the SCREEN, and nothing else. -/
theorem unmaps_fbUninit {p : ScreenBlock} (hp : s.fbScreen = some p) :
    Unmaps start len (s.since (fbUninit s)) ↔
      start = p.start ∧ len = (unmapLength p.screen).toNat := by
  obtain ⟨ops, hops, hscreen, hno⟩ := exists_ops_freeColours s start len
  obtain ⟨ops', hops', hno'⟩ := exists_ops_closeConsole (freeScreen (freeColours s))
    start len
  have hfree : (freeScreen (freeColours s)).ops = (freeColours s).ops ++
      [.release (.mapping p.start (unmapLength p.screen).toNat), .release (.heap p.block)] := by
    simp [freeScreen, hscreen, hp, FbState.log]
  have hall : s.since (fbUninit s) = ops ++ ([.release (.mapping p.start
      (unmapLength p.screen).toNat), .release (.heap p.block)] ++ ops') := by
    rw [FbState.since, fbUninit, hops', hfree, hops, List.append_assoc, List.append_assoc,
      List.drop_left]
  unfold Unmaps at hno hno' ⊢
  simp [hall, hno, hno']

end Init

section Geometry

variable {m : FbMode}

/-- The mode of a display that `fb_init` gets right : rows without padding, and a number of bits
that leaves no part of a byte. -/
structure FbMode.Packed (m : FbMode) : Prop where
  noWrap : NoWrap m
  lineLength : m.lineLength.toNat = m.xres.toNat * m.bitsPerPixel.toNat / 8
  bits : m.xres.toNat * m.bitsPerPixel.toNat % 8 * m.yres.toNat < 8

/-- The bytes of `y` rows of `a` bits, without and with the bits that are cut off. -/
theorem mul_div_eight (a y : ℕ) : a * y / 8 = a / 8 * y + a % 8 * y / 8 := by
  conv_lhs => rw [← Nat.div_add_mod a 8, Nat.add_mul, Nat.mul_assoc]
  rw [Nat.mul_add_div (by decide)]

theorem toNat_pitch (h : NoWrap m) :
    m.screen.pitch.toNat = m.xres.toNat * m.bitsPerPixel.toNat / 8 :=
  toNat_pitch_fbScreen h.row

theorem toNat_screensize (h : NoWrap m) :
    m.screensize.toNat = m.xres.toNat * m.bitsPerPixel.toNat * m.yres.toNat / 8 := by
  have hbyte : (8 : UInt32).toNat = 8 := rfl
  rw [FbMode.screensize, UInt32.toNat_div, UInt32.toNat_mul, UInt32.toNat_mul, hbyte,
    Nat.mod_eq_of_lt h.pixels, Nat.mod_eq_of_lt h.bits, Nat.mul_right_comm]

theorem screenFits_iff :
    ScreenFits m m.screen m.screensize.toNat (unmapLength m.screen).toNat ↔ m.Packed := by
  have hheight : m.screen.height = m.yres := rfl
  have hunmap : (unmapLength m.screen).toNat =
      m.screen.pitch.toNat * m.yres.toNat % 2 ^ 32 := UInt32.toNat_mul ..
  have hbytes := mul_div_eight (m.xres.toNat * m.bitsPerPixel.toNat) m.yres.toNat
  constructor
  · intro h
    have hpitch := toNat_pitch h.noWrap
    refine ⟨h.noWrap, ?_, ?_⟩
    · rw [← hpitch, h.pitch]
    · have hsame := h.unmapped
      have hlt := h.noWrapSize
      rw [hheight] at hlt
      rw [hunmap, Nat.mod_eq_of_lt hlt, hpitch, toNat_screensize h.noWrap, hbytes] at hsame
      omega
  · intro h
    have hpitch := toNat_pitch h.noWrap
    have hsize := toNat_screensize h.noWrap
    have hzero : m.xres.toNat * m.bitsPerPixel.toNat % 8 * m.yres.toNat / 8 = 0 :=
      Nat.div_eq_of_lt h.bits
    have hcovered : m.screen.pitch.toNat * m.yres.toNat = m.screensize.toNat := by
      rw [hpitch, hsize, hbytes, hzero, Nat.add_zero]
    have hlt : m.screen.pitch.toNat * m.yres.toNat < 2 ^ 32 := by
      rw [hcovered]
      exact m.screensize.toNat_lt
    refine ⟨?_, hcovered.le, h.noWrap, hlt, ?_⟩
    · rw [← UInt32.toNat_inj, hpitch, h.lineLength]
    · rw [hunmap, Nat.mod_eq_of_lt hlt, hcovered]

end Geometry

/-- What `fb_init` publishes when it succeeds fits the display exactly if its rows are packed and
no product is cut off. -/
theorem initFits_iff (e : InitEnv) (s : FbState) :
    InitFits e s ↔ (e.Succeeds → e.mode.Packed) := by
  unfold InitFits
  constructor
  · intro h hsucc
    obtain ⟨block, colours, -, hret, hscreen, hops⟩ := fbInit_of_succeeds hsucc s
    refine screenFits_iff.mp (h _ _ _ hret hscreen ?_ ((unmaps_fbUninit hscreen).mpr ⟨rfl, rfl⟩))
    simp [Maps, FbState.since, hops]
  · intro h p mapped unmapped hret hp hmapped hunmapped
    have hsucc := fbInit_eq_zero_iff.mp hret
    obtain ⟨block, colours, hcolours, -, hscreen, hops⟩ := fbInit_of_succeeds hsucc s
    obtain rfl := Option.some.inj (hp.symm.trans hscreen)
    obtain ⟨-, rfl⟩ := (unmaps_fbUninit hscreen).mp hunmapped
    obtain rfl : mapped = e.mode.screensize.toNat := by
      rw [Maps, FbState.since, hops, List.drop_left] at hmapped
      have hno : .acquire (.mapping s.next mapped) ∉ colours := by
        intro hmem
        obtain ⟨b, hb⟩ := hcolours _ hmem
        cases hb
      simpa [hno] using hmapped
    exact screenFits_iff.mpr (h hsucc)

/-- A panel of 1366 by 768 pixels of 16 bits, whose rows are padded to 2816 bytes, and a call that
succeeds. -/
def paddedPanel : InitEnv where
  fd := 3
  fixInfo := true
  varInfo := true
  mode := ⟨2, 1366, 768, 16, 2816⟩
  mmap := true
  mallocColour := true
  mallocScreen := true

/-- Its rows are taken to be 2732 bytes apart. -/
theorem not_initFits_paddedPanel : ¬ InitFits paddedPanel .initial := by
  intro h
  have hfits := h ⟨1, paddedPanel.mode.screen, 0⟩ 2098176 2098176 (by decide) rfl
    (by unfold Maps; decide) (by unfold Unmaps; decide)
  exact absurd hfits.pitch (by decide)

end LxToolset
