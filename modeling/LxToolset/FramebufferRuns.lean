import LxToolset.Framebuffer

/-!
# Calls of fb_init and fb_uninit

A program calls `fb_init` and `fb_uninit` in any order. What the calls share are three variables,
of which `fb_uninit` resets one, and `fb_init` none when it gives up : after a successful
`fb_init` no `fb_uninit` is sound, and after one that gave up late none is that closes its
descriptor again (`runSound_iff`).
-/

namespace LxToolset

/-- A call of a program that uses the framebuffer. -/
inductive FbCall where
  | init (e : InitEnv)
  | uninit

/-- What the call returns, and the state after it. -/
def FbCall.exec (s : FbState) : FbCall → ℤ × FbState
  | .init e => fbInit e s
  | .uninit => (0, fbUninit s)

def runCalls (calls : List FbCall) : FbState :=
  calls.foldl (fun s c => (c.exec s).2) .initial

/-- What has to hold once a call has returned : nothing was released that was not held, nothing is
held if the call was to leave nothing, and the SCREEN of `fb_get_screen` has not been freed. -/
structure CallSound (c : FbCall) (r : ℤ × FbState) : Prop where
  stray : r.2.ledger.stray = []
  released : c = .uninit ∨ r.1 = -1 → r.2.ledger.held = []
  screen : ∀ p, fbGetScreen r.2 = some p → .heap p.block ∈ r.2.ledger.held

/-- Each of the calls is sound. -/
def RunSound (calls : List FbCall) : Prop :=
  ∀ before c after, calls = before ++ c :: after → CallSound c (c.exec (runCalls before))

/-- A call that the module gets right : an `fb_init` that succeeds, or gives up before the colour
map, with nothing to be lost; an `fb_uninit` with nothing to do. -/
def FbCall.Safe (s : FbState) : FbCall → Prop
  | .init e => e.Succeeds ∨ (s.ledger.held = [] ∧ ¬ e.Leaks)
  | .uninit => s.fbScreen = none ∧ s.savedRed = none ∧ s.consoleFd ≤ 0

/-- What holds between sound calls. -/
structure StateSound (s : FbState) : Prop where
  stray : s.ledger.stray = []
  held : s.fbScreen = none → s.ledger.held = []
  screen : ∀ p, s.fbScreen = some p → .heap p.block ∈ s.ledger.held

theorem stateSound_initial : StateSound .initial :=
  ⟨rfl, fun _ => rfl, fun _ hp => by cases hp⟩

section Runs

variable {s : FbState} {c : FbCall} {calls : List FbCall}

theorem fbScreen_fbUninit : (fbUninit s).fbScreen = s.fbScreen := by
  have hconsole : ∀ t : FbState, (closeConsole t).fbScreen = t.fbScreen := by
    intro t
    unfold closeConsole
    split_ifs
    · exact FbState.fbScreen_close
    · rfl
  have hred : (freeColours s).fbScreen = s.fbScreen := by
    unfold freeColours
    cases s.savedRed <;> rfl
  have hfree : ∀ t : FbState, (freeScreen t).fbScreen = t.fbScreen := by
    intro t
    unfold freeScreen
    split <;> rfl
  rw [fbUninit, hconsole, hfree, hred]

theorem stray_of_closeConsole (h : (closeConsole s).ledger.stray = []) : s.ledger.stray = [] := by
  unfold closeConsole at h
  split_ifs at h with hpos
  · rw [FbState.ledger_setConsole, FbState.ledger_close hpos.le] at h
    exact Ledger.stray_of_apply h
  · exact h

/-- With nothing held, the first release is a stray one. -/
theorem stray_apply_release {r : FbResource} (hheld : s.ledger.held = []) :
    (s.ledger.apply (.release r)).stray ≠ [] := by
  rw [Ledger.apply_release_stray (by simp [hheld])]
  exact List.cons_ne_nil _ _

theorem callSound_uninit_iff (h : StateSound s) :
    CallSound .uninit (0, fbUninit s) ↔ FbCall.uninit.Safe s := by
  constructor
  · intro hc
    have hnone : s.fbScreen = none := by
      by_contra hne
      obtain ⟨p, hp⟩ := Option.ne_none_iff_exists'.mp hne
      have hmem := hc.screen p (fbScreen_fbUninit.trans hp)
      rw [hc.released (.inl rfl)] at hmem
      exact absurd hmem List.not_mem_nil
    have hheld := h.held hnone
    have hred : s.savedRed = none := by
      by_contra hne
      obtain ⟨b, hb⟩ := Option.ne_none_iff_exists'.mp hne
      have hfree : fbUninit s = closeConsole (s.log (.release (.heap b))) := by
        simp [fbUninit, freeColours, hb, freeScreen, FbState.log, hnone]
      have hstray := hc.stray
      rw [hfree] at hstray
      have hlog := stray_of_closeConsole hstray
      rw [FbState.ledger_log] at hlog
      exact stray_apply_release hheld hlog
    refine ⟨hnone, hred, not_lt.mp fun hpos => ?_⟩
    have hstray := hc.stray
    have hclose : fbUninit s = (s.close s.consoleFd).setConsole (-1) := by
      simp [fbUninit, freeColours, hred, freeScreen, hnone, closeConsole, hpos]
    rw [hclose, FbState.ledger_setConsole, FbState.ledger_close hpos.le] at hstray
    exact stray_apply_release hheld hstray
  · rintro ⟨hnone, hred, hfd⟩
    have hsame : fbUninit s = s := by
      simp [fbUninit, freeColours, hred, freeScreen, hnone, closeConsole, not_lt.mpr hfd]
    rw [hsame]
    exact ⟨h.stray, fun _ => h.held hnone, h.screen⟩

theorem callSound_init_iff {e : InitEnv} (h : StateSound s) :
    CallSound (.init e) (fbInit e s) ↔ (FbCall.init e).Safe s := by
  by_cases hsucc : e.Succeeds
  · obtain ⟨block, colours, hcolours, hret, hscreen, hops⟩ := fbInit_of_succeeds hsucc s
    refine iff_of_true ⟨?_, ?_, fun p hp => ?_⟩ (.inl hsucc)
    · rw [FbState.ledger, hops, Ledger.run_append, Ledger.stray_run_acquire, ← h.stray]
      · rfl
      · intro op hop
        simp only [List.cons_append, List.mem_cons, List.mem_append, List.not_mem_nil,
          or_false] at hop
        rcases hop with rfl | rfl | hop | rfl
        · exact ⟨_, rfl⟩
        · exact ⟨_, rfl⟩
        · obtain ⟨b, rfl⟩ := hcolours op hop
          exact ⟨_, rfl⟩
        · exact ⟨_, rfl⟩
    · rintro (hc | hfail)
      · cases hc
      · rw [hret] at hfail
        exact absurd hfail (by decide)
    · obtain rfl := Option.some.inj (hp.symm.trans hscreen)
      rw [FbState.ledger, hops, ← List.append_assoc]
      exact Ledger.mem_run_append_acquire
  · have hgives : GivesUp e s (fbInit e s) := givesUp_fbInit hsucc
    constructor
    · intro hc
      have hheld := hc.released (.inr hgives.ret)
      have hclean : ¬ e.Leaks := fun hl => hgives.leaks hl hheld
      rw [hgives.clean hclean] at hheld
      exact .inr ⟨hheld, hclean⟩
    · rintro (hs | ⟨hheld, hclean⟩)
      · exact absurd hs hsucc
      · have hledger := hgives.clean hclean
        refine ⟨hledger ▸ h.stray, fun _ => hledger ▸ hheld, fun p hp => ?_⟩
        rcases hgives.screen with hsame | hnone
        · have hmem := h.screen p (hsame.symm.trans hp)
          rw [hheld] at hmem
          exact absurd hmem List.not_mem_nil
        · cases hnone.symm.trans hp

theorem callSound_iff_safe (h : StateSound s) : CallSound c (c.exec s) ↔ c.Safe s := by
  cases c with
  | init e => exact callSound_init_iff h
  | uninit => exact callSound_uninit_iff h

theorem CallSound.stateSound (hc : CallSound c (c.exec s)) : StateSound (c.exec s).2 := by
  refine ⟨hc.stray, fun hnone => hc.released ?_, hc.screen⟩
  cases c with
  | uninit => exact .inl rfl
  | init e =>
    refine .inr (givesUp_fbInit fun hsucc => ?_).ret
    obtain ⟨block, -, -, -, hscreen, -⟩ := fbInit_of_succeeds hsucc s
    rw [FbCall.exec, hscreen] at hnone
    cases hnone

/-- A property of calls that keeps the state sound, along a run. -/
theorem stateSound_runCalls {P : FbState → FbCall → Prop}
    (hP : ∀ s c, StateSound s → P s c → StateSound (c.exec s).2)
    (h : ∀ before c after, calls = before ++ c :: after → P (runCalls before) c)
    {before after : List FbCall} (hsplit : calls = before ++ after) :
    StateSound (runCalls before) := by
  induction before using List.reverseRecOn generalizing after with
  | nil => exact stateSound_initial
  | append_singleton before c ih =>
    rw [List.append_assoc] at hsplit
    rw [runCalls, List.foldl_append]
    exact hP _ c (ih hsplit) (h before c after hsplit)

end Runs

/-- Every call of a run is sound exactly if each is one that the module gets right. -/
theorem runSound_iff (calls : List FbCall) : RunSound calls ↔
    ∀ before c after, calls = before ++ c :: after → c.Safe (runCalls before) := by
  constructor
  · intro h before c after hsplit
    have hsound := stateSound_runCalls (fun s c _ hc => CallSound.stateSound hc) h hsplit
    exact (callSound_iff_safe hsound).mp (h before c after hsplit)
  · intro h before c after hsplit
    have hsound := stateSound_runCalls
      (fun s c hs hc => ((callSound_iff_safe hs).mpr hc).stateSound) h hsplit
    exact (callSound_iff_safe hsound).mpr (h before c after hsplit)

/-- The SCREEN stays published once it has been freed. -/
theorem not_runSound_uninit : ¬ RunSound [.init paddedPanel, .uninit] := by
  intro h
  have hsound := h [.init paddedPanel] .uninit [] rfl
  have hfreed := hsound.screen ⟨1, paddedPanel.mode.screen, 0⟩ rfl
  rw [hsound.released (.inl rfl)] at hfreed
  exact absurd hfreed List.not_mem_nil

end LxToolset
