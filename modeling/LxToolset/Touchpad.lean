import Mathlib.Data.List.Induction
import Mathlib.Data.Nat.Bitwise
import Mathlib.Tactic.Common

/-!
# getbutton

The touchpad test draws two windows and waits for a press of button 1 in the left one and
of button 3 in the right one. `report_choice` leaves its `choice` as it was when an event
is in neither, so a press counts for the window that was hit last.

`reads_getbutton` says which presses the loop has counted after any events.
-/

namespace LxToolset

/-! ## The program -/

/-- An event `getmouse` delivers : its position, and the two bits of `bstate` that are
tested. -/
structure MouseEvent where
  x : ℤ
  y : ℤ
  button1Pressed : Bool
  button3Pressed : Bool
  deriving DecidableEq

/-- What one `wgetch` returns : `KEY_MOUSE`, with what `getmouse` then finds, or another
code. -/
inductive CursesEvent where
  | mouse (event : MouseEvent)
  | mouseError
  | key (c : ℤ)
  deriving DecidableEq

/-- `menu_win` and `menu_win2`. -/
inductive MenuWindow where
  | left
  | right
  deriving DecidableEq

namespace MenuWindow

def startx : MenuWindow → ℤ
  | .left => 5
  | .right => 40

def starty : MenuWindow → ℤ
  | .left => 5
  | .right => 5

def width : ℤ := 15

def height : ℤ := 8

end MenuWindow

/-- `report_choice`, with the new value of `*p_choice`. -/
def reportChoice (mouseX mouseY : ℤ) (choice : ℕ) : ℕ :=
  let inside (w : MenuWindow) :=
    w.startx < mouseX ∧ mouseX < w.startx + MenuWindow.width ∧
      w.starty < mouseY ∧ mouseY < w.starty + MenuWindow.height
  let choice := if inside .left then 1 else choice
  if inside .right then 2 else choice

/-- `choice`, `pressed` and the calls of `print_menu` so far. -/
structure GetButton where
  choice : ℕ
  pressed : ℕ
  menus : List (MenuWindow × Bool)
  deriving DecidableEq

namespace GetButton

def start : GetButton :=
  ⟨0, 0, [(.left, false), (.right, false)]⟩

/-- The body of the loop for an event of `getmouse`. -/
def handle (s : GetButton) (event : MouseEvent) : GetButton :=
  let s := { s with choice := reportChoice (event.x + 1) (event.y + 1) s.choice }
  if s.choice = 1 then
    if event.button1Pressed then
      { s with pressed := s.pressed ||| 1, menus := s.menus ++ [(.left, true)] }
    else s
  else if s.choice = 2 then
    if event.button3Pressed then
      { s with pressed := s.pressed ||| 2, menus := s.menus ++ [(.right, true)] }
    else s
  else s

/-- The loop over the events, and the status if it ends. -/
def loop (s : GetButton) : List CursesEvent → GetButton × Option ℤ
  | [] => (s, if s.pressed ≠ 3 then none else some 0)
  | e :: es =>
    if s.pressed ≠ 3 then
      match e with
      | .mouse event => loop (s.handle event) es
      | .mouseError => loop s es
      | .key c => if c = 'n'.toNat ∨ c = 'N'.toNat then (s, some 1) else loop s es
    else (s, some 0)

end GetButton

/-- `main` -/
def getbutton (es : List CursesEvent) : GetButton × Option ℤ :=
  GetButton.start.loop es

/-! ## Runs -/

namespace GetButton

/-- The loop stops where it has ended, and goes on from where it has not. -/
theorem loop_append (s : GetButton) (es es' : List CursesEvent) : s.loop (es ++ es') =
    if (s.loop es).2 = none then (s.loop es).1.loop es' else s.loop es := by
  induction es generalizing s with
  | nil =>
    by_cases h : s.pressed = 3
    · cases es' <;> simp [loop, h]
    · simp [loop, h]
  | cons e es ih =>
    by_cases h : s.pressed = 3
    · simp [loop, h]
    · simp only [List.cons_append, loop, if_pos h]
      rcases e with event | _ | c
      · exact ih _
      · exact ih _
      · dsimp only
        by_cases hc : c = 'n'.toNat ∨ c = 'N'.toNat
        · simp only [if_pos hc, reduceCtorEq, if_false]
        · simpa only [if_neg hc] using ih s

end GetButton

/-- The events leave `choice` so. -/
def CursesEvent.hit (choice : ℕ) : CursesEvent → ℕ
  | .mouse event => reportChoice (event.x + 1) (event.y + 1) choice
  | _ => choice

/-- The window that was hit last : 1, 2, or 0 for none. -/
def lastHit (es : List CursesEvent) : ℕ :=
  es.foldl CursesEvent.hit 0

/-- `n` or `N`, which ends the test with a failure. -/
def CursesEvent.RecordsFailure : CursesEvent → Prop
  | .key c => c = 'n'.toNat ∨ c = 'N'.toNat
  | _ => False

namespace MenuWindow

/-- The `choice` of the window. -/
def choice : MenuWindow → ℕ
  | .left => 1
  | .right => 2

/-- The bit of `pressed` for the window. -/
def bit : MenuWindow → ℕ
  | .left => 0
  | .right => 1

/-- The button the window waits for. -/
def Presses : MenuWindow → MouseEvent → Prop
  | .left, event => event.button1Pressed = true
  | .right, event => event.button3Pressed = true

def other : MenuWindow → MenuWindow
  | .left => .right
  | .right => .left

/-- The position lies in the window as `newwin` draws it. -/
def Drawn (w : MenuWindow) (event : MouseEvent) : Prop :=
  w.startx ≤ event.x ∧ event.x < w.startx + width ∧
    w.starty ≤ event.y ∧ event.y < w.starty + height

/-- Among the events is a press of the window's button made while it was hit last. -/
def PressedIn (w : MenuWindow) (es : List CursesEvent) : Prop :=
  ∃ pre event, pre ++ [.mouse event] <+: es ∧ w.Presses event ∧
    lastHit (pre ++ [.mouse event]) = w.choice

/-- `event`, after `pre`, is the first such press. -/
def FirstPress (w : MenuWindow) (pre : List CursesEvent) (event : MouseEvent) : Prop :=
  ¬w.PressedIn pre ∧ w.Presses event ∧ lastHit (pre ++ [.mouse event]) = w.choice

variable {w : MenuWindow} {es es' : List CursesEvent}

theorem not_pressedIn_nil : ¬w.PressedIn [] := by
  rintro ⟨pre, event, h, -⟩
  simp at h

theorem PressedIn.mono (h : w.PressedIn es) (hle : es <+: es') : w.PressedIn es' := by
  obtain ⟨pre, event, hpre, hp⟩ := h
  exact ⟨pre, event, hpre.trans hle, hp⟩

theorem pressedIn_snoc (e : CursesEvent) : w.PressedIn (es ++ [e]) ↔ w.PressedIn es ∨
    ∃ event, e = .mouse event ∧ w.Presses event ∧ lastHit (es ++ [e]) = w.choice := by
  refine ⟨?_, ?_⟩
  · rintro ⟨pre, event, hpre, hp, hl⟩
    rcases List.prefix_concat_iff.1 hpre with heq | hpre
    · obtain ⟨rfl, he⟩ := List.append_inj' heq rfl
      obtain rfl := List.singleton_inj.1 he
      exact Or.inr ⟨event, rfl, hp, hl⟩
    · exact Or.inl ⟨pre, event, hpre, hp, hl⟩
  · rintro (h | ⟨event, rfl, hp, hl⟩)
    · exact h.mono (List.prefix_append _ _)
    · exact ⟨es, event, List.prefix_rfl, hp, hl⟩

/-- A counted press has a first one. -/
theorem PressedIn.exists_first (h : w.PressedIn es) :
    ∃ pre event, pre ++ [.mouse event] <+: es ∧ w.FirstPress pre event := by
  induction es using List.reverseRecOn with
  | nil => exact absurd h not_pressedIn_nil
  | append_singleton es e ih =>
    by_cases hes : w.PressedIn es
    · obtain ⟨pre, event, hpre, hf⟩ := ih hes
      exact ⟨pre, event, hpre.trans (List.prefix_append _ _), hf⟩
    · obtain hp | ⟨event, rfl, hp, hl⟩ := (pressedIn_snoc e).1 h
      · exact absurd hp hes
      · exact ⟨es, event, List.prefix_rfl, hes, hp, hl⟩

end MenuWindow

/-! ## What the loop counts -/

/-- After `es` the loop has counted the presses of `es` and shown them, and until it ends it
knows the window hit last. -/
structure Reads (es : List CursesEvent) (r : GetButton × Option ℤ) : Prop where
  lt : r.1.pressed < 4
  testBit : ∀ w : MenuWindow, r.1.pressed.testBit w.bit = true ↔ w.PressedIn es
  highlighted : ∀ w : MenuWindow, (w, true) ∈ r.1.menus ↔ w.PressedIn es
  choice : r.2 = none → r.1.choice = lastHit es
  status : r.2 = if r.1.pressed ≠ 3 then none else some 0

theorem lastHit_snoc (es : List CursesEvent) (e : CursesEvent) :
    lastHit (es ++ [e]) = e.hit (lastHit es) := by
  rw [lastHit, List.foldl_append]
  rfl

namespace GetButton

/-- An event sets the bit of the window hit last if it presses its button. -/
theorem handle_testBit (s : GetButton) (event : MouseEvent) (w : MenuWindow) :
    (s.handle event).pressed.testBit w.bit = true ↔ s.pressed.testBit w.bit = true ∨
      w.Presses event ∧ reportChoice (event.x + 1) (event.y + 1) s.choice = w.choice := by
  have h11 : Nat.testBit 1 1 = false := by decide
  have h20 : Nat.testBit 2 0 = false := by decide
  have h21 : Nat.testBit 2 1 = true := by decide
  unfold handle
  cases w <;> dsimp only [MenuWindow.bit, MenuWindow.Presses, MenuWindow.choice] <;>
    split_ifs <;> simp_all

/-- The same presses are shown. -/
theorem handle_menus (s : GetButton) (event : MouseEvent) (w : MenuWindow) :
    (w, true) ∈ (s.handle event).menus ↔ (w, true) ∈ s.menus ∨
      w.Presses event ∧ reportChoice (event.x + 1) (event.y + 1) s.choice = w.choice := by
  unfold handle
  cases w <;> dsimp only [MenuWindow.Presses, MenuWindow.choice] <;> split_ifs <;> simp_all

theorem handle_lt {s : GetButton} (h : s.pressed < 4) (event : MouseEvent) :
    (s.handle event).pressed < 4 := by
  have hor : ∀ n < 4, s.pressed ||| n < 4 := fun n hn => Nat.or_lt_two_pow (n := 2) h hn
  unfold handle
  dsimp only
  split_ifs
  · exact hor 1 (by decide)
  · exact h
  · exact hor 2 (by decide)
  · exact h
  · exact h

theorem handle_choice (s : GetButton) (event : MouseEvent) :
    (s.handle event).choice = reportChoice (event.x + 1) (event.y + 1) s.choice := by
  unfold handle
  dsimp only
  split_ifs <;> rfl

end GetButton

/-- `pressed` is its two bits. -/
theorem pressed_ext {a b : ℕ} (ha : a < 4) (hb : b < 4)
    (h : ∀ w : MenuWindow, a.testBit w.bit = true ↔ b.testBit w.bit = true) : a = b := by
  have hbit : ∀ w : MenuWindow, a.testBit w.bit = b.testBit w.bit := fun w =>
    Bool.eq_iff_iff.2 (h w)
  refine Nat.eq_of_testBit_eq fun i => ?_
  rcases Nat.lt_or_ge i 2 with hi | hi
  · obtain rfl | rfl : i = 0 ∨ i = 1 := by omega
    · exact hbit .left
    · exact hbit .right
  · have hpow : 2 ^ 2 ≤ 2 ^ i := Nat.pow_le_pow_right (by decide) hi
    rw [Nat.testBit_lt_two_pow (ha.trans_le hpow), Nat.testBit_lt_two_pow (hb.trans_le hpow)]

/-- Both bits are set once the loop has ended. -/
theorem testBit_three (w : MenuWindow) : Nat.testBit 3 w.bit = true := by
  cases w <;> decide

/-- An event that is no mouse event changes nothing. -/
theorem Reads.snoc_other {es : List CursesEvent} {r : GetButton × Option ℤ} (h : Reads es r)
    {e : CursesEvent} (he : ∀ event, e ≠ .mouse event) : Reads (es ++ [e]) r := by
  have hsnoc : ∀ w : MenuWindow, w.PressedIn es ↔ w.PressedIn (es ++ [e]) := fun w => by
    rw [MenuWindow.pressedIn_snoc]
    exact ⟨Or.inl, fun hp => hp.resolve_right fun ⟨event, heq, _⟩ => he event heq⟩
  refine ⟨h.lt, fun w => ?_, fun w => ?_, fun hr => ?_, h.status⟩
  · rw [h.testBit, hsnoc]
  · rw [h.highlighted, hsnoc]
  · rw [h.choice hr, lastHit_snoc]
    rcases e with event | _ | c
    · exact absurd rfl (he event)
    · rfl
    · rfl

/-- A mouse event read counts if it is a press for the window hit last. -/
theorem Reads.snoc_mouse {es : List CursesEvent} {s : GetButton} (h : Reads es (s, none))
    (event : MouseEvent) : Reads (es ++ [.mouse event])
      (s.handle event, if (s.handle event).pressed ≠ 3 then none else some 0) := by
  have hchoice : (s.handle event).choice = lastHit (es ++ [.mouse event]) := by
    rw [GetButton.handle_choice, lastHit_snoc, h.choice rfl]
    rfl
  have hsnoc : ∀ w : MenuWindow, w.PressedIn (es ++ [.mouse event]) ↔ w.PressedIn es ∨
      w.Presses event ∧ (s.handle event).choice = w.choice := fun w => by
    rw [MenuWindow.pressedIn_snoc, hchoice]
    simp
  refine ⟨GetButton.handle_lt h.lt event, fun w => ?_, fun w => ?_, fun _ => hchoice, rfl⟩
  · rw [GetButton.handle_testBit, hsnoc, h.testBit, GetButton.handle_choice]
  · rw [GetButton.handle_menus, hsnoc, h.highlighted, GetButton.handle_choice]

/-- The loop counts the presses made while the window of the button was hit last. -/
theorem reads_getbutton {es : List CursesEvent} (hes : ∀ e ∈ es, ¬e.RecordsFailure) :
    Reads es (getbutton es) := by
  induction es using List.reverseRecOn with
  | nil =>
    refine ⟨by decide, fun w => ?_, fun w => ?_, fun _ => rfl, rfl⟩ <;>
      simp [getbutton, GetButton.start, GetButton.loop, MenuWindow.not_pressedIn_nil]
  | append_singleton es e ih =>
    have hr : Reads es (getbutton es) := ih fun e he => hes e (List.mem_append_left _ he)
    have happend : getbutton (es ++ [e]) =
        if (getbutton es).2 = none then (getbutton es).1.loop [e] else getbutton es :=
      GetButton.loop_append _ _ _
    rw [happend]
    generalize getbutton es = r at hr
    obtain ⟨s, status⟩ := r
    by_cases h3 : s.pressed = 3
    · -- the loop has ended, with both windows pressed
      have hstatus : status = some 0 := by simpa [h3] using hr.status
      subst hstatus
      have hboth : ∀ w : MenuWindow, w.PressedIn es := fun w =>
        (hr.testBit w).1 (by rw [h3]; exact testBit_three w)
      simp only [reduceCtorEq, if_false]
      have hsnoc : ∀ w : MenuWindow, w.PressedIn es ↔ w.PressedIn (es ++ [e]) := fun w =>
        iff_of_true (hboth w) ((hboth w).mono (List.prefix_append _ _))
      exact ⟨hr.lt, fun w => (hr.testBit w).trans (hsnoc w),
        fun w => (hr.highlighted w).trans (hsnoc w), fun h => absurd h (by simp), hr.status⟩
    · have hstatus : status = none := by simpa [h3] using hr.status
      subst hstatus
      rcases e with event | _ | c
      · simpa [GetButton.loop, h3] using hr.snoc_mouse event
      · simpa [GetButton.loop, h3] using hr.snoc_other (e := .mouseError) (by simp)
      · have hc : ¬(c = 'n'.toNat ∨ c = 'N'.toNat) := hes (.key c) (by simp)
        simpa only [GetButton.loop, ne_eq, h3, not_false_eq_true, if_true, if_neg hc] using
          hr.snoc_other (e := .key c) (by simp)

/-! ## The test -/

/-- The position lies in neither window as drawn. -/
def MouseEvent.Outside (event : MouseEvent) : Prop :=
  ∀ w : MenuWindow, ¬w.Drawn event

/-- No event outside both windows changes `pressed`. -/
def IgnoresOutside (es : List CursesEvent) : Prop :=
  ∀ pre event, pre ++ [.mouse event] <+: es → event.Outside →
    (getbutton (pre ++ [.mouse event])).1.pressed = (getbutton pre).1.pressed

/-- Among the events is a press of the window's button in the window. -/
def MenuWindow.PressedInside (w : MenuWindow) (es : List CursesEvent) : Prop :=
  ∃ event, .mouse event ∈ es ∧ w.Presses event ∧ w.Drawn event

/-- The test succeeds only if both windows have been pressed. -/
def SucceedsRightly (es : List CursesEvent) : Prop :=
  (getbutton es).2 = some 0 → ∀ w : MenuWindow, w.PressedInside es

/-- The first press counted for each window lies in the window, or in the other one where
this does no harm. -/
def FirstPressesInPlace (es : List CursesEvent) : Prop :=
  ∀ (w : MenuWindow) pre event, pre ++ [.mouse event] <+: es → w.FirstPress pre event →
    w.Drawn event ∨ w.other.Drawn event ∧ (w.other.PressedIn es → w.PressedInside es)

theorem getbutton_eq_zero_iff {es : List CursesEvent} (hes : ∀ e ∈ es, ¬e.RecordsFailure) :
    (getbutton es).2 = some 0 ↔ ∀ w : MenuWindow, w.PressedIn es := by
  have hr := reads_getbutton hes
  have h3 : (getbutton es).2 = some 0 ↔ (getbutton es).1.pressed = 3 := by
    rw [hr.status]
    by_cases h : (getbutton es).1.pressed = 3 <;> simp [h]
  rw [h3]
  refine ⟨fun h w => (hr.testBit w).1 (by rw [h]; exact testBit_three w), fun h => ?_⟩
  exact pressed_ext hr.lt (by decide) fun w => iff_of_true ((hr.testBit w).2 (h w))
    (testBit_three w)

/-- `pressed` changes with an event exactly if it is a window's first press. -/
theorem pressed_ne_iff {es pre : List CursesEvent} {event : MouseEvent}
    (hes : ∀ e ∈ es, ¬e.RecordsFailure) (hpre : pre ++ [.mouse event] <+: es) :
    (getbutton (pre ++ [.mouse event])).1.pressed ≠ (getbutton pre).1.pressed ↔
      ∃ w : MenuWindow, w.FirstPress pre event := by
  have hr := reads_getbutton fun e he => hes e (hpre.subset (List.mem_append_left _ he))
  have hr' := reads_getbutton fun e he => hes e (hpre.subset he)
  have hbits : (getbutton (pre ++ [.mouse event])).1.pressed = (getbutton pre).1.pressed ↔
      ∀ w : MenuWindow, w.PressedIn (pre ++ [.mouse event]) ↔ w.PressedIn pre := by
    refine ⟨fun h w => ?_, fun h => pressed_ext hr'.lt hr.lt fun w => ?_⟩
    · rw [← hr'.testBit, ← hr.testBit, h]
    · rw [hr'.testBit, hr.testBit, h w]
  rw [ne_eq, hbits, not_forall]
  refine exists_congr fun w => ?_
  rw [MenuWindow.pressedIn_snoc, MenuWindow.FirstPress]
  simp only [CursesEvent.mouse.injEq, exists_eq_left']
  tauto

/-- Over all events other than `n` and `N` : the test is right exactly if the first press
counted for each window lies in it, or harmlessly in the other window. -/
theorem getbutton_isRight_iff {es : List CursesEvent} (hes : ∀ e ∈ es, ¬e.RecordsFailure) :
    IgnoresOutside es ∧ SucceedsRightly es ↔ FirstPressesInPlace es := by
  refine ⟨?_, fun h => ⟨?_, ?_⟩⟩
  · rintro ⟨hout, hright⟩ w pre event hpre hf
    have hin : ∃ w' : MenuWindow, w'.Drawn event := by
      by_contra hnone
      exact (pressed_ne_iff hes hpre).2 ⟨w, hf⟩ (hout pre event hpre (not_exists.1 hnone))
    have hw : w.PressedIn es := ⟨pre, event, hpre, hf.2⟩
    obtain ⟨w', hw'⟩ := hin
    by_cases hww : w' = w
    · exact Or.inl (hww ▸ hw')
    · have hother : w' = w.other := by
        cases w <;> cases w' <;> first | rfl | exact absurd rfl hww
      refine Or.inr ⟨hother ▸ hw', fun hother => ?_⟩
      refine hright ((getbutton_eq_zero_iff hes).2 fun v => ?_) w
      cases v <;> cases w <;> assumption
  · intro pre event hpre hout
    by_contra hne
    obtain ⟨w, hf⟩ := (pressed_ne_iff hes hpre).1 hne
    rcases h w pre event hpre hf with hd | ⟨hd, -⟩
    · exact hout w hd
    · exact hout w.other hd
  · intro hzero w
    have hall := (getbutton_eq_zero_iff hes).1 hzero
    obtain ⟨pre, event, hpre, hf⟩ := (hall w).exists_first
    rcases h w pre event hpre hf with hd | ⟨-, hinside⟩
    · exact ⟨event, hpre.subset (by simp), hf.2.1, hd⟩
    · exact hinside (hall w.other)

/-- A press of each button in its window. -/
def clickBoth : List CursesEvent :=
  [.mouse ⟨10, 7, true, false⟩, .mouse ⟨45, 7, false, true⟩]

theorem getbutton_isRight_iff_clickBoth :
    IgnoresOutside clickBoth ∧ SucceedsRightly clickBoth := by
  refine (getbutton_isRight_iff (by simp [clickBoth, CursesEvent.RecordsFailure])).2 ?_
  intro w pre event hpre hfirst
  have hpress := hfirst.2.1
  have hmem : .mouse event ∈ clickBoth := hpre.subset (by simp)
  left
  simp only [clickBoth, List.mem_cons, CursesEvent.mouse.injEq, List.not_mem_nil, or_false] at hmem
  -- only the window of the button takes the press
  rcases hmem with rfl | rfl <;> cases w <;>
    simp_all [MenuWindow.Presses, MenuWindow.Drawn, MenuWindow.startx, MenuWindow.width,
      MenuWindow.starty, MenuWindow.height]

/-- The pointer passes through each window, and the button is pressed outside of it. -/
def missBoth : List CursesEvent :=
  [.mouse ⟨10, 7, false, false⟩, .mouse ⟨70, 20, true, false⟩,
    .mouse ⟨45, 7, false, false⟩, .mouse ⟨70, 20, false, true⟩]

/-- The test succeeds on presses that lie outside both windows. -/
theorem missBoth_succeeds : (∀ e ∈ missBoth, ¬e.RecordsFailure) ∧
    (getbutton missBoth).2 = some 0 ∧ ¬IgnoresOutside missBoth ∧ ¬SucceedsRightly missBoth := by
  have hzero : (getbutton missBoth).2 = some 0 := by decide
  refine ⟨by simp [missBoth, CursesEvent.RecordsFailure], hzero, fun h => ?_, fun h => ?_⟩
  · have hsame := h [.mouse ⟨10, 7, false, false⟩] ⟨70, 20, true, false⟩
      ⟨missBoth.drop 2, rfl⟩ (by rintro (_ | _) <;> simp [MenuWindow.Drawn, MenuWindow.startx,
        MenuWindow.width])
    exact absurd hsame (by decide)
  · obtain ⟨event, hmem, hp, hd⟩ := h hzero .left
    simp only [missBoth, List.mem_cons, CursesEvent.mouse.injEq, List.not_mem_nil, or_false] at hmem
    rcases hmem with rfl | rfl | rfl | rfl <;>
      simp [MenuWindow.Presses, MenuWindow.Drawn, MenuWindow.startx, MenuWindow.width] at hp hd

end LxToolset
