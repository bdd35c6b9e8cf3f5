import LxToolset.SisLines
import LxToolset.SisWriteCommand

/-!
# sis_dump_regs : the command loop

`main` reads standard input line by line into a buffer of 200 bytes, cuts the last byte and
hands what is left to `parse_cmd`, until an exit command. A write command reads the numbers
for its prompts from the same input, and at its end the buffer is handed again.
`commandLoop_handsLines_iff` says on which inputs the strings handed are the lines of the text.
-/

namespace LxToolset

/-! ## `do_cmd` and `main` -/

/-- The state of `main` : that of the commands, the string in `buf`, the variable `ret` of
`do_cmd`, the text on standard error, and the strings handed to `parse_cmd`. -/
structure ShellState where
  debug : DebugState
  buf : List Char
  ret : ℤ
  err : List Char
  handed : List (List Char)

/-- The string in `buf` after `fgets`, which keeps what was there at the end of the input. -/
def bufString (s : ShellState) : List Char :=
  cString (if (fgets 199 s.debug.stdin).1 = [] then s.buf else (fgets 199 s.debug.stdin).1)

/-- The prompt of `do_cmd`, left out after a blank line. -/
def prompted (s : ShellState) : ShellState :=
  if s.ret = 0 then { s with err := s.err ++ "sis_debug# ".toList } else { s with ret := 0 }

/-- `do_cmd()`. Cutting the empty string stores in front of `buf`. -/
def doCmd (pw : Password) (u : Unset) (attempts : ℕ) (s : ShellState) : Option (ℤ × ShellState) :=
  let debug := { s.debug with stdin := (fgets 199 s.debug.stdin).2 }
  let buf := (bufString s).dropLast
  if bufString s = [] then none
  else if buf = [] then some (0, { prompted s with debug := debug, buf := buf, ret := 1 })
  else (parseCmd pw u attempts buf debug).map fun r =>
    (r.1, { prompted s with debug := r.2, buf := buf, handed := s.handed ++ [buf] })

/-- `while (!do_cmd());` with as many calls as given. Each finds other memory that was not
set. -/
def commandLoop (pw : Password) (attempts : ℕ) :
    ℕ → (ℕ → Unset) → ShellState → Option ShellState
  | 0, _, _ => none
  | calls + 1, u, s => (doCmd pw (u 0) attempts s).bind fun r =>
    if r.1 = 0 then commandLoop pw attempts calls (fun i => u (i + 1)) r.2 else some r.2

/-! ## The lines of a text -/

/-- The loop ends at the first exit command of the text, and the strings handed to `parse_cmd`
are the lines up to it. -/
def HandsLines (pw : Password) (u : ℕ → Unset) (s : ShellState) : Prop :=
  (∃ calls attempts, (commandLoop pw attempts calls u s).isSome) ∧
    ∀ calls attempts s', commandLoop pw attempts calls u s = some s' →
      s'.handed = s.handed ++ commandLines s.debug.stdin ∧
        s'.debug.stdin = afterExit s.debug.stdin

/-- `parse_cmd` returns on the line and takes no input : the line is no write command that
shows a prompt. -/
structure Quiet (u : Unset) (line : List Char) : Prop where
  defined : (parse u.stale sisops line).2 ≠ .fault
  prompts : ∀ op, (parse u.stale sisops line).2 = .run op → op.ops = .write →
    ∀ a ∈ writeArgs u.beyond (argvOf line), cells a.count a.width = []

/-- The first line is not empty, and it and its newline fit into the buffer. -/
structure Fits (text : List Char) : Prop where
  newline : '\n' ∈ text
  nonempty : lineOf text ≠ []
  length : (lineOf text).length ≤ 198
  nul : '\x00' ∉ lineOf text

/-- The lines up to the first exit command, which there is, fit into the buffer, and those
before it are quiet. -/
inductive Framed : (ℕ → Unset) → List Char → Prop
  | blank {u : ℕ → Unset} {text : List Char} (h : Framed (fun i => u (i + 1)) text) :
      Framed u ('\n' :: text)
  | exit {u : ℕ → Unset} {text : List Char} (hfits : Fits text)
      (hexit : runsExit (lineOf text) = true) : Framed u text
  | next {u : ℕ → Unset} {text : List Char} (hfits : Fits text)
      (hexit : runsExit (lineOf text) = false) (hquiet : Quiet (u 0) (lineOf text))
      (h : Framed (fun i => u (i + 1)) (afterLine text)) : Framed u text

/-! ## What a command leaves -/

/-- What a command leaves on standard input, if it returns. -/
def SisCmd.leaves (u : Unset) (argv : List (List Char)) (text : List Char) :
    SisCmd → Option (List Char)
  | .write =>
    match writeArgs u.beyond argv with
    | some a => leftAt text (cells a.count a.width).length
    | none => some text
  | _ => some text

/-- What a line leaves of the text after it, if `parse_cmd` returns. -/
def leaves (u : Unset) (line text : List Char) : Option (List Char) :=
  match (parse u.stale sisops line).2 with
  | .fault => none
  | .run op => op.ops.leaves u (argvOf line) text
  | _ => some text

section Leaves

variable {u : Unset} {line text rest : List Char}

theorem Quiet.leaves_eq (h : Quiet u line) (text : List Char) : leaves u line text = some text := by
  rw [leaves]
  rcases hparse : (parse u.stale sisops line).2 with _ | _ | op | names
  · rfl
  · exact absurd hparse h.defined
  · dsimp only
    cases hops : op.ops with
    | write =>
      rw [SisCmd.leaves]
      rcases ha : writeArgs u.beyond (argvOf line) with _ | a
      · rfl
      · dsimp only
        rw [h.prompts op hparse hops a ha]
        rfl
    | _ => rfl
  · rfl

/-- Other lines that return are write commands with prompts. -/
theorem prompts_of_not_quiet (h : leaves u line text = some rest) (hquiet : ¬Quiet u line) :
    ∃ op k, (parse u.stale sisops line).2 = .run op ∧ op.ops = .write ∧ k ≠ 0 ∧
      leftAt text k = some rest := by
  rw [leaves] at h
  rcases hparse : (parse u.stale sisops line).2 with _ | _ | op | names <;> rw [hparse] at h
  · exact absurd ⟨by simp [hparse], by simp [hparse]⟩ hquiet
  · cases h
  · by_contra hno
    refine hquiet ⟨by simp [hparse], fun op' hop hwrite a ha => ?_⟩
    obtain rfl : op = op' := by simpa [hparse] using hop
    by_contra hcells
    dsimp only at h
    rw [hwrite, SisCmd.leaves, ha] at h
    exact hno ⟨op, _, rfl, hwrite, fun h0 => hcells (List.length_eq_zero_iff.1 h0), h⟩
  · exact absurd ⟨by simp [hparse], by simp [hparse]⟩ hquiet

theorem quiet_of_runsExit (h : runsExit line = true) : Quiet u line := by
  obtain ⟨op, hrun, hexit⟩ := (runsExit_iff u.stale line).1 h
  refine ⟨by simp [hrun], fun op' hop hwrite => ?_⟩
  obtain rfl : op = op' := by simpa [hrun] using hop
  cases hexit.symm.trans hwrite

/-- A command puts nothing back. -/
theorem suffix_of_leaves (h : leaves u line text = some rest) : rest <:+ text := by
  by_cases hquiet : Quiet u line
  · rw [hquiet.leaves_eq] at h
    cases h
    exact List.suffix_rfl
  · obtain ⟨op, k, -, -, -, hleft⟩ := prompts_of_not_quiet h hquiet
    exact suffix_of_leftAt hleft

end Leaves

section Command

variable {pw : Password} {u : Unset} {n : ℕ}

/-- `cmd_read` never ends the loop. -/
theorem cmdRead_le (beyond : List Char) (argv : List (List Char)) (s : SisState) :
    ((cmdRead pw beyond argv).run s).1 ≤ 0 := by
  match argv with
  | [] => exact (by decide : (-1 : ℤ) ≤ 0)
  | [_] => exact (by decide : (-1 : ℤ) ≤ 0)
  | argv0 :: argv1 :: rest =>
    unfold cmdRead
    dsimp only
    split
    · split
      · exact (by decide : (-2 : ℤ) ≤ 0)
      · exact le_refl (0 : ℤ)
    · exact le_refl (0 : ℤ)

/-- What a handler that returns does. -/
theorem exec_spec {cmd : SisCmd} {argv : List (List Char)} {s s' : DebugState} {r : ℤ}
    (h : cmd.exec pw u n argv s = some (r, s')) :
    (0 < r ↔ cmd = .exit) ∧ cmd.leaves u argv s.stdin = some s'.stdin := by
  cases cmd with
  | read =>
    cases h
    exact ⟨iff_of_false (cmdRead_le _ _ _).not_gt (by decide), rfl⟩
  | write =>
    rw [SisCmd.leaves]
    rcases ha : writeArgs u.beyond argv with _ | a
    · obtain ⟨r', out, hr', heq⟩ := cmdWrite_none pw u.beyond u.j n ha s
      cases heq.symm.trans h
      exact ⟨iff_of_false (by omega) (by decide), rfl⟩
    · obtain ⟨rfl, -⟩ := forM_of_cmdWrite ha h
      exact ⟨iff_of_false (by omega) (by decide), leftAt_of_cmdWrite ha h⟩
  | exit =>
    cases h
    exact ⟨iff_of_true Int.one_pos rfl, rfl⟩

variable (pw) in
/-- A handler that leaves something returns. -/
theorem exec_returns {cmd : SisCmd} {argv : List (List Char)} {s : DebugState} {rest : List Char}
    (hn : s.stdin.length < n) (h : cmd.leaves u argv s.stdin = some rest) :
    ∃ r s', cmd.exec pw u n argv s = some (r, s') := by
  cases cmd with
  | read => exact ⟨_, _, rfl⟩
  | write =>
    rw [SisCmd.leaves] at h
    rcases ha : writeArgs u.beyond argv with _ | a
    · obtain ⟨r, out, -, heq⟩ := cmdWrite_none pw u.beyond u.j n ha s
      exact ⟨r, _, heq⟩
    · rw [ha] at h
      obtain ⟨s', heq⟩ := cmdWrite_returns pw u.j ha hn (ne_stuck_of_leftAt h)
      exact ⟨0, s', heq⟩
  | exit => exact ⟨_, _, rfl⟩

/-- What `parse_cmd` does, if it returns. -/
theorem parseCmd_spec {line : List Char} {s s' : DebugState} {r : ℤ}
    (h : parseCmd pw u n line s = some (r, s')) :
    (r ≠ 0 ↔ runsExit line = true) ∧ leaves u line s.stdin = some s'.stdin := by
  rw [runsExit_iff u.stale]
  unfold parseCmd at h
  unfold leaves
  rcases hparse : (parse u.stale sisops line).2 with _ | _ | op | names <;> rw [hparse] at h
  · cases h
    exact ⟨iff_of_false (by simp) (by simp), rfl⟩
  · cases h
  · obtain ⟨⟨ret, s₁⟩, hexec, hrest⟩ := Option.bind_eq_some_iff.1 h
    obtain ⟨hret, hleaves⟩ := exec_spec hexec
    have hexit : (∃ op', ParseAction.run op = .run op' ∧ op'.ops = .exit) ↔ 0 < ret := by
      simp [hret]
    rw [hexit]
    dsimp only at hrest
    split_ifs at hrest with hneg hpos
    · cases hrest
      exact ⟨iff_of_false (by simp) (by omega), hleaves⟩
    · cases hrest
      exact ⟨iff_of_true (by omega) hpos, hleaves⟩
    · cases hrest
      exact ⟨iff_of_false (by simp) hpos, hleaves⟩
  · cases h
    exact ⟨iff_of_false (by simp) (by simp), rfl⟩

variable (pw) in
/-- `parse_cmd` returns on a line that leaves something. -/
theorem parseCmd_returns {line rest : List Char} {s : DebugState} (hn : s.stdin.length < n)
    (h : leaves u line s.stdin = some rest) : ∃ r s', parseCmd pw u n line s = some (r, s') := by
  unfold leaves at h
  unfold parseCmd
  rcases hparse : (parse u.stale sisops line).2 with _ | _ | op | names <;> rw [hparse] at h
  · exact ⟨_, _, rfl⟩
  · cases h
  · obtain ⟨ret, s₁, hexec⟩ := exec_returns pw hn h
    change ∃ r s', (op.ops.exec pw u n (argvOf line) s).bind _ = some (r, s')
    rw [hexec]
    dsimp only [Option.bind_some]
    split_ifs
    · exact ⟨_, _, rfl⟩
    · exact ⟨_, _, rfl⟩
    · exact ⟨_, _, rfl⟩
  · exact ⟨_, _, rfl⟩

end Command

/-! ## One line -/

section DoCmd

variable {pw : Password} {u : Unset} {n : ℕ} {s s' : ShellState} {r : ℤ}

theorem prompted_handed (s : ShellState) : (prompted s).handed = s.handed := by
  unfold prompted
  split <;> rfl

/-- What `do_cmd` does, if it returns. -/
theorem doCmd_cases (h : doCmd pw u n s = some (r, s')) : bufString s ≠ [] ∧
    s'.buf = (bufString s).dropLast ∧
    ((s'.buf = [] ∧ r = 0 ∧ s'.handed = s.handed ∧
        s'.debug.stdin = (fgets 199 s.debug.stdin).2) ∨
      (s'.buf ≠ [] ∧ s'.handed = s.handed ++ [s'.buf] ∧ (r ≠ 0 ↔ runsExit s'.buf = true) ∧
        leaves u s'.buf (fgets 199 s.debug.stdin).2 = some s'.debug.stdin)) := by
  unfold doCmd at h
  dsimp only at h
  split_ifs at h with hnil hbuf
  · cases h
    exact ⟨hnil, rfl, Or.inl ⟨hbuf, rfl, prompted_handed s, rfl⟩⟩
  · obtain ⟨⟨r', d⟩, hparse, heq⟩ := Option.map_eq_some_iff.1 h
    cases heq
    obtain ⟨hexit, hleaves⟩ := parseCmd_spec hparse
    exact ⟨hnil, rfl, Or.inr ⟨hbuf, rfl, hexit, hleaves⟩⟩

variable (pw) in
/-- `do_cmd` returns if a blank line is read, or one that leaves something. -/
theorem doCmd_returns (hnil : bufString s ≠ []) (hn : (fgets 199 s.debug.stdin).2.length < n)
    (h : (bufString s).dropLast = [] ∨ ∃ rest,
      leaves u (bufString s).dropLast (fgets 199 s.debug.stdin).2 = some rest) :
    ∃ r s', doCmd pw u n s = some (r, s') := by
  unfold doCmd
  dsimp only
  rw [if_neg hnil]
  split_ifs with hbuf
  · exact ⟨_, _, rfl⟩
  · obtain ⟨rest, hrest⟩ := h.resolve_left hbuf
    obtain ⟨r, d, hparse⟩ := parseCmd_returns pw
      (s := { s.debug with stdin := (fgets 199 s.debug.stdin).2 }) hn hrest
    rw [hparse]
    exact ⟨_, _, rfl⟩

/-- Standard input has ended. -/
theorem bufString_of_nil (h : s.debug.stdin = []) : bufString s = cString s.buf := by
  rw [bufString, h]
  rfl

theorem fgets_ne_nil {text : List Char} (h : text ≠ []) : (fgets 199 text).1 ≠ [] := by
  obtain ⟨c, cs, rfl⟩ := List.exists_cons_of_ne_nil h
  rw [fgets]
  split_ifs <;> exact List.cons_ne_nil _ _

theorem bufString_of_stdin (h : s.debug.stdin ≠ []) (hnul : '\x00' ∉ lineOf s.debug.stdin) :
    bufString s = (fgets 199 s.debug.stdin).1 := by
  rw [bufString, if_neg (fgets_ne_nil h), cString, List.takeWhile_eq_self_iff, fgets_fst]
  intro c hc
  have hmem := (List.take_sublist _ _).subset hc
  rw [List.mem_append] at hmem
  refine decide_eq_true fun hc0 => ?_
  subst hc0
  rcases hmem with hmem | hmem
  · exact hnul hmem
  · split_ifs at hmem <;> simp at hmem

theorem not_mem_bufString (s : ShellState) : '\x00' ∉ bufString s := fun h => by
  simpa using List.mem_takeWhile_imp h

/-- A line that fits is in the buffer with its newline. -/
theorem Fits.bufString_eq (h : Fits s.debug.stdin) :
    bufString s = lineOf s.debug.stdin ++ ['\n'] ∧
      (fgets 199 s.debug.stdin).2 = afterLine s.debug.stdin := by
  have hfgets := fgets_line h.newline (Nat.lt_succ_of_le h.length)
  rw [bufString_of_stdin (List.ne_nil_of_mem h.newline) h.nul, hfgets]
  exact ⟨rfl, rfl⟩

/-- A line that does not fit is cut. -/
theorem length_buf_lt (hline : lineOf s.debug.stdin ≠ []) (hnul : '\x00' ∉ lineOf s.debug.stdin)
    (hfits : ¬Fits s.debug.stdin) :
    (bufString s).dropLast.length < (lineOf s.debug.stdin).length := by
  have hpos := List.length_pos_of_ne_nil hline
  have hne : s.debug.stdin ≠ [] := fun h => hline (by rw [h]; rfl)
  rw [bufString_of_stdin hne hnul, fgets_fst, List.length_dropLast, List.length_take,
    List.length_append]
  split_ifs with hnl
  · have hlong : 198 < (lineOf s.debug.stdin).length := by
      by_contra hle
      exact hfits ⟨hnl, hline, not_lt.1 hle, hnul⟩
    omega
  · rw [List.length_nil]
    omega

/-- What is left of a piece is not longer than its characters but the newline. -/
theorem weight_fgets (hstdin : s.debug.stdin ≠ []) :
    (bufString s).dropLast.length + weight (fgets 199 s.debug.stdin).2 ≤
      weight s.debug.stdin := by
  have hne : (fgets 199 s.debug.stdin).1 ≠ [] := fgets_ne_nil hstdin
  have hle : (bufString s).length ≤ (fgets 199 s.debug.stdin).1.length := by
    rw [bufString, if_neg hne]
    exact (List.takeWhile_prefix _).length_le
  have hpiece : (fgets 199 s.debug.stdin).1.length ≤ weight (fgets 199 s.debug.stdin).1 + 1 := by
    have hline : '\n' ∉ (lineOf s.debug.stdin).take 199 := fun h =>
      not_mem_lineOf _ (List.mem_of_mem_take h)
    have htail : ∀ k, ((if '\n' ∈ s.debug.stdin then ['\n'] else []).take k).length ≤ 1 := by
      intro k
      split_ifs <;> simp
    rw [fgets_fst, List.take_append, List.length_append, weight_append, weight_of_not_mem hline]
    exact Nat.add_le_add_left ((htail _).trans (Nat.le_add_left 1 _)) _
  have hsum := congrArg weight (fgets_append 199 s.debug.stdin)
  rw [weight_append] at hsum
  rw [List.length_dropLast]
  omega

/-- If a piece is all that is left, it is a line. -/
theorem length_buf_le_lastLen (hstdin : s.debug.stdin ≠ [])
    (hended : (fgets 199 s.debug.stdin).2 = []) :
    (bufString s).dropLast.length ≤ lastLen s.debug.stdin := by
  have hne : (fgets 199 s.debug.stdin).1 ≠ [] := fgets_ne_nil hstdin
  have happ := fgets_append 199 s.debug.stdin
  rw [hended, List.append_nil] at happ
  have hle : (bufString s).length ≤ s.debug.stdin.length := by
    rw [bufString, if_neg hne, happ]
    exact (List.takeWhile_prefix _).length_le
  obtain ⟨hone, hnewline⟩ := lastLen_line (not_mem_lineOf s.debug.stdin)
  rw [List.length_dropLast]
  by_cases hnl : '\n' ∈ s.debug.stdin
  · have hlen := congrArg List.length (happ.symm.trans (fgets_fst 199 s.debug.stdin))
    have hsplit := lineOf_append hnl
    have hsum := congrArg List.length hsplit
    rw [if_pos hnl, List.length_take, List.length_append, List.length_singleton] at hlen
    rw [List.length_append, List.length_cons] at hsum
    have hafter : afterLine s.debug.stdin = [] := List.length_eq_zero_iff.1 (by omega)
    rw [hafter] at hsplit
    rw [hsplit] at hnewline
    omega
  · rw [lineOf_eq_self hnl] at hone
    omega

/-- If nothing of a line is left after it is cut, the input has ended. -/
theorem fgets_snd_of_cut (hline : lineOf s.debug.stdin ≠ [])
    (hnul : '\x00' ∉ lineOf s.debug.stdin) (hcut : (bufString s).dropLast = []) :
    (fgets 199 s.debug.stdin).2 = [] := by
  have hpos := List.length_pos_of_ne_nil hline
  have hne : s.debug.stdin ≠ [] := fun h => hline (by rw [h]; rfl)
  have happ := congrArg List.length (fgets_append 199 s.debug.stdin)
  rw [List.length_append] at happ
  have hlen := congrArg List.length hcut
  rw [bufString_of_stdin hne hnul, List.length_dropLast, List.length_nil] at hlen
  have hfst := congrArg List.length (fgets_fst 199 s.debug.stdin)
  rw [List.length_take, List.length_append] at hfst
  split_ifs at hfst with hnl
  · rw [List.length_singleton] at hfst
    omega
  · rw [lineOf_eq_self hnl, List.length_nil] at hfst
    exact List.length_eq_zero_iff.1 (by omega)

end DoCmd

/-! ## The loop -/

section Loop

variable {pw : Password} {n : ℕ}

/-- The loop as its first call and the rest. -/
theorem commandLoop_succ {calls : ℕ} {u : ℕ → Unset} {s s' : ShellState} :
    commandLoop pw n (calls + 1) u s = some s' ↔ ∃ r s₁, doCmd pw (u 0) n s = some (r, s₁) ∧
      (if r = 0 then commandLoop pw n calls (fun i => u (i + 1)) s₁ else some s₁) = some s' := by
  rw [commandLoop, Option.bind_eq_some_iff]
  exact ⟨fun ⟨⟨r, s₁⟩, hcall, hrest⟩ => ⟨r, s₁, hcall, hrest⟩,
    fun ⟨r, s₁, hcall, hrest⟩ => ⟨(r, s₁), hcall, hrest⟩⟩

/-- The strings handed stay handed, and have no NUL. -/
theorem handed_of_commandLoop {calls : ℕ} {u : ℕ → Unset} {s s' : ShellState}
    (h : commandLoop pw n calls u s = some s') :
    ∃ new, s'.handed = s.handed ++ new ∧ ∀ x ∈ new, '\x00' ∉ x := by
  induction calls generalizing u s with
  | zero => cases h
  | succ calls ih =>
    obtain ⟨r, s₁, hcall, hrest⟩ := commandLoop_succ.1 h
    obtain ⟨-, hbuf, hcases⟩ := doCmd_cases hcall
    have hnul : '\x00' ∉ s₁.buf := fun hmem =>
      not_mem_bufString s (List.dropLast_subset _ (hbuf ▸ hmem))
    obtain ⟨first, hfirst, hfree⟩ : ∃ first, s₁.handed = s.handed ++ first ∧
        ∀ x ∈ first, '\x00' ∉ x := by
      rcases hcases with ⟨-, -, hhanded, -⟩ | ⟨-, hhanded, -⟩
      · exact ⟨[], by rw [hhanded, List.append_nil], by simp⟩
      · exact ⟨[s₁.buf], hhanded, by simpa using hnul⟩
    split_ifs at hrest
    · obtain ⟨new, hnew, hnew0⟩ := ih hrest
      refine ⟨first ++ new, by rw [hnew, hfirst, List.append_assoc], fun x hx => ?_⟩
      exact (List.mem_append.1 hx).elim (hfree x) (hnew0 x)
    · cases hrest
      exact ⟨first, hfirst, hfree⟩

theorem exists_call {calls : ℕ} {u : ℕ → Unset} {s s' : ShellState}
    (h : commandLoop pw n calls u s = some s') : ∃ c r s₁, doCmd pw (u 0) n s = some (r, s₁) ∧
      (if r = 0 then commandLoop pw n c (fun i => u (i + 1)) s₁ else some s₁) = some s' := by
  cases calls with
  | zero => cases h
  | succ c => exact ⟨c, commandLoop_succ.1 h⟩

/-- At the end of the input with nothing in the buffer, the loop does not return. -/
theorem commandLoop_ended {calls : ℕ} {u : ℕ → Unset} {s : ShellState}
    (hstdin : s.debug.stdin = []) (hbuf : s.buf = []) : commandLoop pw n calls u s = none := by
  cases calls with
  | zero => rfl
  | succ calls =>
    have hnil : bufString s = [] := by
      rw [bufString_of_nil hstdin, hbuf]
      rfl
    rw [commandLoop, doCmd, if_pos hnil]
    rfl

/-- The call on a blank line. -/
theorem doCmd_blank {u : Unset} {s s₁ : ShellState} {r : ℤ} {text : List Char}
    (hstdin : s.debug.stdin = '\n' :: text) (h : doCmd pw u n s = some (r, s₁)) :
    r = 0 ∧ s₁.handed = s.handed ∧ s₁.debug.stdin = text := by
  have hbuf : (bufString s).dropLast = [] := by
    rw [bufString, hstdin]
    rfl
  obtain ⟨-, heq, ⟨-, hr, hhanded, hrest⟩ | ⟨hne, -⟩⟩ := doCmd_cases h
  · rw [hstdin] at hrest
    exact ⟨hr, hhanded, hrest⟩
  · exact absurd (heq.trans hbuf) hne

/-- The call on a line that fits. -/
theorem doCmd_fits {u : Unset} {s s₁ : ShellState} {r : ℤ} (hfits : Fits s.debug.stdin)
    (h : doCmd pw u n s = some (r, s₁)) : s₁.buf = lineOf s.debug.stdin ∧
      (r ≠ 0 ↔ runsExit (lineOf s.debug.stdin) = true) ∧
      s₁.handed = s.handed ++ [lineOf s.debug.stdin] ∧
        leaves u (lineOf s.debug.stdin) (afterLine s.debug.stdin) = some s₁.debug.stdin := by
  obtain ⟨hbuf, hafter⟩ := hfits.bufString_eq
  obtain ⟨-, heq, hcases⟩ := doCmd_cases h
  rw [hbuf, List.dropLast_concat] at heq
  rw [heq, hafter] at hcases
  obtain ⟨hnil, -⟩ | ⟨-, hhanded, hexit, hleaves⟩ := hcases
  · exact absurd hnil hfits.nonempty
  · exact ⟨heq, hexit, hhanded, hleaves⟩

/-- A call that hands nothing at the end of the input is the last that returns. -/
theorem buf_ne_nil_of_ended {calls : ℕ} {u : ℕ → Unset} {s s₁ s' : ShellState} {r : ℤ}
    (hcall : doCmd pw (u 0) n s = some (r, s₁)) (hended : (fgets 199 s.debug.stdin).2 = [])
    (hrest : (if r = 0 then commandLoop pw n calls (fun i => u (i + 1)) s₁ else some s₁) =
      some s') : s₁.buf ≠ [] := by
  intro hnil
  obtain ⟨-, -, ⟨-, rfl, -, hstdin⟩ | ⟨hne, -⟩⟩ := doCmd_cases hcall
  · rw [if_pos rfl, commandLoop_ended (hstdin.trans hended) hnil] at hrest
    cases hrest
  · exact hne hnil

/-- What a call hands is the first string that the run hands. -/
theorem handed_cons {calls : ℕ} {u : ℕ → Unset} {s s₁ s' : ShellState} {r : ℤ}
    (hcall : doCmd pw (u 0) n s = some (r, s₁)) (hne : s₁.buf ≠ [])
    (hrest : (if r = 0 then commandLoop pw n calls (fun i => u (i + 1)) s₁ else some s₁) =
      some s') : ∃ new, s'.handed = s.handed ++ (s₁.buf :: new) := by
  obtain ⟨-, -, ⟨hnil, -⟩ | ⟨-, hhanded, -⟩⟩ := doCmd_cases hcall
  · exact absurd hnil hne
  · split_ifs at hrest
    · obtain ⟨new, hnew, -⟩ := handed_of_commandLoop hrest
      exact ⟨new, by rw [hnew, hhanded, List.append_assoc, List.singleton_append]⟩
    · cases hrest
      exact ⟨[], hhanded⟩

/-- At the end of the input the last string handed, an exit command, is a beginning of what
was in the buffer, and is shorter. -/
theorem ended_run {calls : ℕ} {u : ℕ → Unset} {s s' : ShellState} (hstdin : s.debug.stdin = [])
    (h : commandLoop pw n calls u s = some s') : s'.debug.stdin = [] ∧ ∃ ls x,
      s'.handed = s.handed ++ ls ∧ ls.getLast? = some x ∧ runsExit x = true ∧ x <+: s.buf ∧
        x.length < s.buf.length := by
  induction calls generalizing u s with
  | zero => cases h
  | succ calls ih =>
    obtain ⟨r, s₁, hcall, hrest⟩ := commandLoop_succ.1 h
    have hended : (fgets 199 s.debug.stdin).2 = [] := by rw [hstdin]; rfl
    have hne := buf_ne_nil_of_ended hcall hended hrest
    obtain ⟨hnil, hbuf, ⟨hb, -⟩ | ⟨-, hhanded, hexit, hleaves⟩⟩ := doCmd_cases hcall
    · exact absurd hb hne
    have hstdin₁ : s₁.debug.stdin = [] := by
      rw [hended] at hleaves
      exact List.suffix_nil.1 (suffix_of_leaves hleaves)
    have hpre : s₁.buf <+: s.buf := by
      rw [hbuf, bufString_of_nil hstdin]
      exact (List.dropLast_prefix _).trans (List.takeWhile_prefix _)
    have hlt : s₁.buf.length < s.buf.length := by
      have hpos := List.length_pos_of_ne_nil hnil
      have hle : (bufString s).length ≤ s.buf.length := by
        rw [bufString_of_nil hstdin]
        exact (List.takeWhile_prefix _).length_le
      rw [hbuf, List.length_dropLast]
      omega
    by_cases hr : r = 0
    · rw [if_pos hr] at hrest
      obtain ⟨hstdin', ls, x, hls, hlast, hx, hxpre, hxlt⟩ := ih hstdin₁ hrest
      refine ⟨hstdin', s₁.buf :: ls, x, ?_, ?_, hx, hxpre.trans hpre, hxlt.trans hlt⟩
      · rw [hls, hhanded, List.append_assoc, List.singleton_append]
      · rw [List.getLast?_cons, hlast]
        rfl
    · rw [if_neg hr, Option.some.injEq] at hrest
      subst hrest
      exact ⟨hstdin₁, [s₁.buf], s₁.buf, hhanded, rfl, hexit.1 hr, hpre, hlt⟩

/-- The strings handed have no more characters than the input taken, or the input has ended
and the last string handed, an exit command, is shorter than its last line. -/
def HandedFrom (text rest : List Char) (ls : List (List Char)) : Prop :=
  ls.flatten.length + weight rest ≤ weight text ∨
    rest = [] ∧ ∃ x, ls.getLast? = some x ∧ runsExit x = true ∧ x.length < lastLen text

section HandedFrom

variable {text text' rest w : List Char} {ls : List (List Char)}

theorem HandedFrom.mono (h : HandedFrom text rest ls) (hsuffix : text <:+ text') :
    HandedFrom text' rest ls := by
  rcases h with hle | ⟨hend, x, hlast, hx, hlt⟩
  · exact Or.inl (hle.trans (weight_of_suffix hsuffix))
  · exact Or.inr ⟨hend, x, hlast, hx, hlt.trans_le (lastLen_of_suffix hsuffix)⟩

/-- A string is handed first that has no more characters than what was taken for it. -/
theorem HandedFrom.cons (h : HandedFrom text rest ls) (hsuffix : text <:+ text')
    (hw : w.length + weight text ≤ weight text') : HandedFrom text' rest (w :: ls) := by
  rcases h with hle | ⟨hend, x, hlast, hx, hlt⟩
  · refine Or.inl ?_
    rw [List.flatten_cons, List.length_append]
    omega
  · refine Or.inr ⟨hend, x, ?_, hx, hlt.trans_le (lastLen_of_suffix hsuffix)⟩
    rw [List.getLast?_cons, hlast]
    rfl

end HandedFrom

/-- A call after which the input has ended and the loop goes on. -/
theorem handedFrom_of_ended {calls : ℕ} {u : ℕ → Unset} {s s₁ s' : ShellState}
    (hstdin : s.debug.stdin ≠ []) (hbuf : s₁.buf = (bufString s).dropLast)
    (hleaves : leaves (u 0) s₁.buf (fgets 199 s.debug.stdin).2 = some s₁.debug.stdin)
    (hstdin₁ : s₁.debug.stdin = [])
    (hrest : commandLoop pw n calls (fun i => u (i + 1)) s₁ = some s') :
    ∃ ls, s'.handed = s₁.handed ++ ls ∧
      HandedFrom s.debug.stdin s'.debug.stdin (s₁.buf :: ls) := by
  obtain ⟨hend, ls, x, hls, hlast, hx, hpre, hlt⟩ := ended_run hstdin₁ hrest
  refine ⟨ls, hls, Or.inr ⟨hend, x, ?_, hx, hlt.trans_le ?_⟩⟩
  · rw [List.getLast?_cons, hlast]
    rfl
  · rw [hbuf]
    refine length_buf_le_lastLen hstdin ?_
    by_contra hne
    -- a command has taken the rest of the input, and is no beginning of it an exit
    have hnot : ¬Quiet (u 0) s₁.buf := fun hquiet => by
      rw [hquiet.leaves_eq, hstdin₁] at hleaves
      exact hne (Option.some.inj hleaves)
    obtain ⟨op, -, hrun, hwrite, -⟩ := prompts_of_not_quiet hleaves hnot
    rw [not_runsExit_of_write hpre hrun hwrite] at hx
    cases hx

theorem handedFrom_of_commandLoop {calls : ℕ} {u : ℕ → Unset} {s s' : ShellState}
    (hstdin : s.debug.stdin ≠ []) (h : commandLoop pw n calls u s = some s') :
    ∃ ls, s'.handed = s.handed ++ ls ∧ HandedFrom s.debug.stdin s'.debug.stdin ls := by
  induction calls generalizing u s with
  | zero => cases h
  | succ calls ih =>
    obtain ⟨r, s₁, hcall, hrest⟩ := commandLoop_succ.1 h
    have hsuffix : (fgets 199 s.debug.stdin).2 <:+ s.debug.stdin := ⟨_, fgets_append 199 _⟩
    obtain ⟨-, hbuf, ⟨hb, rfl, hhanded, hq⟩ | ⟨hb, hhanded, hexit, hleaves⟩⟩ := doCmd_cases hcall
    · rw [if_pos rfl] at hrest
      have hstdin₁ : s₁.debug.stdin ≠ [] := fun hnil => by
        rw [commandLoop_ended hnil hb] at hrest
        cases hrest
      obtain ⟨ls, hls, hout⟩ := ih hstdin₁ hrest
      exact ⟨ls, by rw [hls, hhanded], hout.mono (hq ▸ hsuffix)⟩
    · have hleft := suffix_of_leaves hleaves
      have hweight : s₁.buf.length + weight s₁.debug.stdin ≤ weight s.debug.stdin := by
        rw [hbuf]
        exact (Nat.add_le_add_left (weight_of_suffix hleft) _).trans (weight_fgets hstdin)
      split_ifs at hrest
      · have hcons : ∀ ls, s'.handed = s₁.handed ++ ls → s'.handed = s.handed ++ s₁.buf :: ls :=
          fun ls hls => by rw [hls, hhanded, List.append_assoc, List.singleton_append]
        by_cases hstdin₁ : s₁.debug.stdin = []
        · obtain ⟨ls, hls, hout⟩ := handedFrom_of_ended hstdin hbuf hleaves hstdin₁ hrest
          exact ⟨_, hcons ls hls, hout⟩
        · obtain ⟨ls, hls, hout⟩ := ih hstdin₁ hrest
          exact ⟨_, hcons ls hls, hout.cons (hleft.trans hsuffix) hweight⟩
      · cases hrest
        refine ⟨[s'.buf], hhanded, Or.inl ?_⟩
        rwa [List.flatten_singleton]

/-- Where a command has taken input, the strings handed are not the lines after it. -/
theorem not_lines_of_prompts {calls : ℕ} {u : ℕ → Unset} {s s' : ShellState} {stale : List Char}
    {op : SisOp SisCmd} {text : List Char} {k : ℕ} (hrun : (parse stale sisops s.buf).2 = .run op)
    (hwrite : op.ops = .write) (hk : k ≠ 0) (hleft : leftAt text k = some s.debug.stdin)
    (h : commandLoop pw n calls u s = some s')
    (hhanded : s'.handed = s.handed ++ commandLines text) : s'.debug.stdin ≠ afterExit text := by
  intro hafter
  by_cases hstdin : s.debug.stdin = []
  · obtain ⟨-, ls, x, -, -, hx, hpre, -⟩ := ended_run hstdin h
    rw [not_runsExit_of_write hpre hrun hwrite] at hx
    cases hx
  obtain ⟨ls, hls, hout⟩ := handedFrom_of_commandLoop hstdin h
  obtain rfl : ls = commandLines text := List.append_cancel_left (hls.symm.trans hhanded)
  rcases hout with hle | ⟨hend, x, hlast, hx, hlt⟩
  · obtain ⟨c, mid, hc, hmid, hrest⟩ := digit_of_leftAt hleft hk hstdin
    have hne : c ≠ '\n' := by
      rintro rfl
      exact absurd hc (by decide)
    have hcons : weight (c :: mid) = weight mid + 1 :=
      List.countP_cons_of_pos (by simpa using hne)
    have hmidle := weight_of_suffix hmid
    have hrestle := weight_of_suffix hrest
    have hsum := weight_commandLines text
    rw [hafter] at hle
    omega
  · have hlen := lastLen_of_exit hlast hx (hafter.symm.trans hend)
    have hle := lastLen_of_suffix (suffix_of_leftAt hleft)
    omega

/-- At the end of the input a run that returns hands what was in the buffer, and there are no lines
to hand. -/
theorem stdin_ne_nil_of_handed {calls : ℕ} {u : ℕ → Unset} {s s' : ShellState}
    (h : commandLoop pw n calls u s = some s')
    (hhanded : s'.handed = s.handed ++ commandLines s.debug.stdin) : s.debug.stdin ≠ [] := by
  intro hstdin
  obtain ⟨-, ls, x, hls, hlast, -⟩ := ended_run hstdin h
  rw [hstdin, commandLines_nil] at hhanded
  obtain rfl : ls = [] := List.append_cancel_left (hls.symm.trans hhanded)
  cases hlast

/-- A first line that is handed as it is fits. -/
theorem fits_of_handed {calls : ℕ} {u : ℕ → Unset} {s s' : ShellState}
    (h : commandLoop pw n calls u s = some s') (hline : lineOf s.debug.stdin ≠ [])
    (hhanded : s'.handed = s.handed ++ commandLines s.debug.stdin) : Fits s.debug.stdin := by
  obtain ⟨ls, hls⟩ := commandLines_head hline
  have hfree : '\x00' ∉ lineOf s.debug.stdin := by
    obtain ⟨new, hnew, hnul⟩ := handed_of_commandLoop h
    obtain rfl := List.append_cancel_left (hhanded.symm.trans hnew)
    exact hnul _ (hls ▸ List.mem_cons_self)
  obtain ⟨c, r, s₁, hcall, hrest⟩ := exists_call h
  obtain ⟨-, hbuf, -⟩ := doCmd_cases hcall
  by_contra hfits
  -- what does not fit is handed cut, or nothing is left of it to hand
  have hlt := length_buf_lt hline hfree hfits
  have hne : s₁.buf ≠ [] := fun hnil =>
    buf_ne_nil_of_ended hcall (fgets_snd_of_cut hline hfree (hbuf ▸ hnil)) hrest hnil
  obtain ⟨new, hnew⟩ := handed_cons hcall hne hrest
  rw [hls] at hhanded
  have heq := (List.cons.inj (List.append_cancel_left (hnew.symm.trans hhanded))).1
  rw [← hbuf, heq] at hlt
  exact absurd hlt (lt_irrefl _)

/-- If a run that returns has handed the lines, they were framed. -/
theorem framed_of_commandLoop {calls : ℕ} {u : ℕ → Unset} {s s' : ShellState}
    (h : commandLoop pw n calls u s = some s')
    (hhanded : s'.handed = s.handed ++ commandLines s.debug.stdin)
    (hafter : s'.debug.stdin = afterExit s.debug.stdin) : Framed u s.debug.stdin := by
  induction calls generalizing u s with
  | zero => cases h
  | succ calls ih =>
    obtain ⟨r, s₁, hcall, hrest⟩ := commandLoop_succ.1 h
    by_cases hline : lineOf s.debug.stdin = []
    · have hcons := eq_cons_of_lineOf (stdin_ne_nil_of_handed h hhanded) hline
      obtain ⟨rfl, hsame, hstdin⟩ := doCmd_blank hcons hcall
      rw [if_pos rfl] at hrest
      rw [hcons, ← hstdin, commandLines_of_blank] at hhanded
      rw [hcons, ← hstdin, afterExit_of_blank] at hafter
      rw [hcons, ← hstdin]
      exact .blank (ih hrest (by rw [hhanded, hsame]) hafter)
    have hfits := fits_of_handed h hline hhanded
    obtain ⟨hbuf, hexit, hone, hleaves⟩ := doCmd_fits hfits hcall
    by_cases hr : r = 0
    · rw [if_pos hr] at hrest
      have hno : runsExit (lineOf s.debug.stdin) = false := by
        rw [← Bool.not_eq_true]
        exact fun he => hexit.2 he hr
      rw [commandLines_of_next hline hno, ← List.singleton_append, ← List.append_assoc,
        ← hone] at hhanded
      rw [afterExit_of_next hno] at hafter
      by_cases hquiet : Quiet (u 0) (lineOf s.debug.stdin)
      · rw [hquiet.leaves_eq] at hleaves
        rw [Option.some.inj hleaves] at hhanded hafter
        exact .next hfits hno hquiet (Option.some.inj hleaves ▸ ih hrest hhanded hafter)
      · -- the prompts have taken characters that the lines would hand
        obtain ⟨op, k, hrun, hwrite, hk, hleft⟩ := prompts_of_not_quiet hleaves hquiet
        rw [← hbuf] at hrun
        exact absurd hafter (not_lines_of_prompts hrun hwrite hk hleft hrest hhanded)
    · exact .exit hfits (hexit.1 hr)

/-- What the loop hands if the lines are framed. -/
theorem lines_of_framed {u : ℕ → Unset} {text : List Char} (hf : Framed u text) {calls : ℕ}
    {s s' : ShellState} (hstdin : s.debug.stdin = text)
    (h : commandLoop pw n calls u s = some s') :
    s'.handed = s.handed ++ commandLines text ∧ s'.debug.stdin = afterExit text := by
  induction hf generalizing calls s with
  | @blank u text hf ih =>
    obtain ⟨c, r, s₁, hcall, hrest⟩ := exists_call h
    obtain ⟨rfl, hsame, hstdin₁⟩ := doCmd_blank hstdin hcall
    rw [commandLines_of_blank, afterExit_of_blank, ← hsame]
    exact ih hstdin₁ hrest
  | exit hfits hexit =>
    obtain ⟨c, r, s₁, hcall, hrest⟩ := exists_call h
    subst hstdin
    obtain ⟨-, hruns, hone, hleaves⟩ := doCmd_fits hfits hcall
    rw [if_neg (hruns.2 hexit), Option.some.injEq] at hrest
    subst hrest
    rw [(quiet_of_runsExit hexit).leaves_eq] at hleaves
    rw [commandLines_of_exit hfits.nonempty hexit, afterExit_of_exit hexit]
    exact ⟨hone, (Option.some.inj hleaves).symm⟩
  | next hfits hexit hquiet hf ih =>
    obtain ⟨c, r, s₁, hcall, hrest⟩ := exists_call h
    subst hstdin
    obtain ⟨-, hruns, hone, hleaves⟩ := doCmd_fits hfits hcall
    have hr : r = 0 := not_not.1 fun hr => by
      rw [hruns.1 hr] at hexit
      cases hexit
    rw [if_pos hr] at hrest
    rw [hquiet.leaves_eq] at hleaves
    obtain ⟨hhanded, hafter⟩ := ih (Option.some.inj hleaves).symm hrest
    rw [commandLines_of_next hfits.nonempty hexit, afterExit_of_next hexit, hafter]
    refine ⟨?_, rfl⟩
    rw [hhanded, hone, List.append_assoc, List.singleton_append]

variable (pw) in
/-- A call on a line that fits returns if the line is quiet. -/
theorem doCmd_fits_returns {u : Unset} {s : ShellState} (hfits : Fits s.debug.stdin)
    (hn : s.debug.stdin.length ≤ n) (hquiet : Quiet u (lineOf s.debug.stdin)) :
    ∃ r s₁, doCmd pw u n s = some (r, s₁) := by
  obtain ⟨hbuf, hafter⟩ := hfits.bufString_eq
  refine doCmd_returns pw (by rw [hbuf]; simp) ?_ (Or.inr ?_)
  · rw [hafter]
    exact (length_afterLine_lt hfits.newline).trans_le hn
  · rw [hbuf, List.dropLast_concat, hafter]
    exact ⟨_, hquiet.leaves_eq _⟩

variable (pw) in
/-- The loop ends if the lines are framed. -/
theorem commandLoop_returns {u : ℕ → Unset} {text : List Char} (hf : Framed u text)
    {s : ShellState} (hstdin : s.debug.stdin = text) (hn : text.length ≤ n) :
    ∃ calls s', commandLoop pw n calls u s = some s' := by
  induction hf generalizing s with
  | @blank u text hf ih =>
    have hbuf : bufString s = ['\n'] := by
      rw [bufString, hstdin]
      rfl
    rw [List.length_cons] at hn
    obtain ⟨r, s₁, hcall⟩ := doCmd_returns pw (u := u 0) (n := n) (by rw [hbuf]; simp)
      (by rw [hstdin]; exact hn) (Or.inl (by rw [hbuf]; rfl))
    obtain ⟨rfl, -, hstdin₁⟩ := doCmd_blank hstdin hcall
    obtain ⟨calls, s', hs'⟩ := ih hstdin₁ (Nat.le_of_succ_le hn)
    exact ⟨calls + 1, s', commandLoop_succ.2 ⟨0, s₁, hcall, by rw [if_pos rfl]; exact hs'⟩⟩
  | exit hfits hexit =>
    subst hstdin
    obtain ⟨r, s₁, hcall⟩ := doCmd_fits_returns pw hfits hn (quiet_of_runsExit hexit)
    obtain ⟨-, hruns, -⟩ := doCmd_fits hfits hcall
    exact ⟨1, s₁, commandLoop_succ.2 ⟨r, s₁, hcall, by rw [if_neg (hruns.2 hexit)]⟩⟩
  | next hfits hexit hquiet hf ih =>
    subst hstdin
    obtain ⟨r, s₁, hcall⟩ := doCmd_fits_returns pw hfits hn hquiet
    obtain ⟨-, hruns, -, hleaves⟩ := doCmd_fits hfits hcall
    have hr : r = 0 := not_not.1 fun hr => by
      rw [hruns.1 hr] at hexit
      cases hexit
    rw [hquiet.leaves_eq] at hleaves
    obtain ⟨calls, s', hs'⟩ := ih (Option.some.inj hleaves).symm
      ((length_afterLine_lt hfits.newline).le.trans hn)
    exact ⟨calls + 1, s', commandLoop_succ.2 ⟨r, s₁, hcall, by rw [if_pos hr]; exact hs'⟩⟩

theorem HandsLines.framed {u : ℕ → Unset} {s : ShellState} (h : HandsLines pw u s) :
    Framed u s.debug.stdin := by
  obtain ⟨⟨calls, n, hsome⟩, hall⟩ := h
  obtain ⟨s', hrun⟩ := Option.isSome_iff_exists.1 hsome
  obtain ⟨hhanded, hafter⟩ := hall calls n s' hrun
  exact framed_of_commandLoop hrun hhanded hafter

end Loop

end LxToolset
