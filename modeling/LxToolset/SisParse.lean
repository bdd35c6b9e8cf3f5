import LxToolset.SisWrite
import Mathlib.Data.List.Nodup
import Mathlib.Data.List.Perm.Basic

/-!
# sis_dump_regs : the command line

`parse_cmd` splits a line at its spaces, looks its first word up in a table of operations and
runs the one found. `parse_safe_iff` says on which lines it and the handlers stay inside their
arrays and strings, `parse_dispatches_iff` on which lines the operation run is the one that
the word abbreviates.
-/

namespace LxToolset

/-! ## The words of a line -/

/-- `p + strspn(p, " ")`. -/
def skipSpaces (p : List Char) : List Char :=
  p.dropWhile (· = ' ')

/-- `strndup(p, strcspn(p, " "))`. -/
def firstWord (p : List Char) : List Char :=
  p.takeWhile (· ≠ ' ')

/-- `p + strcspn(p, " ")`. -/
def afterWord (p : List Char) : List Char :=
  p.dropWhile (· ≠ ' ')

theorem length_afterWord_lt (c : Char) (cs : List Char) :
    (afterWord (skipSpaces (c :: cs))).length < (c :: cs).length := by
  have hle : ∀ p : List Char, (afterWord p).length ≤ p.length := fun p =>
    List.length_dropWhile_le _ p
  by_cases hc : c = ' '
  · have hskip : skipSpaces (c :: cs) = skipSpaces cs := List.dropWhile_cons_of_pos (by simp [hc])
    rw [hskip]
    exact ((hle _).trans (List.length_dropWhile_le _ cs)).trans_lt (Nat.lt_succ_self _)
  · have hskip : skipSpaces (c :: cs) = c :: cs := List.dropWhile_cons_of_neg (by simp [hc])
    have hafter : afterWord (c :: cs) = afterWord cs :=
      List.dropWhile_cons_of_pos (by simp [hc])
    rw [hskip, hafter]
    exact (hle cs).trans_lt (Nat.lt_succ_self _)

/-- The words that the loop of `parse_cmd` puts into `argv`. -/
def argvOf : List Char → List (List Char)
  | [] => []
  | c :: cs =>
    if firstWord (skipSpaces (c :: cs)) = [] then argvOf (afterWord (skipSpaces (c :: cs)))
    else firstWord (skipSpaces (c :: cs)) :: argvOf (afterWord (skipSpaces (c :: cs)))
  termination_by p => p.length
  decreasing_by all_goals exact length_afterWord_lt c cs

theorem ne_nil_of_mem_argvOf {p w : List Char} (h : w ∈ argvOf p) : w ≠ [] := by
  fun_induction argvOf p with
  | case1 => simp at h
  | case2 c cs hnil ih => exact ih h
  | case3 c cs hne ih =>
    rcases List.mem_cons.1 h with rfl | h
    · exact hne
    · exact ih h

/-- A word in front of a space or the end. -/
theorem argvOf_append {w : List Char} (hw : w ≠ []) (hspace : ' ' ∉ w) {rest : List Char}
    (hrest : ∀ c ∈ rest.head?, c = ' ') : argvOf (w ++ rest) = w :: argvOf rest := by
  have hall : ∀ c ∈ w, decide (c ≠ ' ') = true := fun c hc => by
    simpa using fun h : c = ' ' => hspace (h ▸ hc)
  have hfirst : firstWord (w ++ rest) = w := by
    rw [firstWord, List.takeWhile_append_of_pos hall]
    cases rest with
    | nil => simp
    | cons c rest => simp [hrest c rfl]
  have hafter : afterWord (w ++ rest) = rest := by
    rw [afterWord, List.dropWhile_append_of_pos hall]
    cases rest with
    | nil => rfl
    | cons c rest => simp [hrest c rfl]
  obtain ⟨c, cs, rfl⟩ := List.exists_cons_of_ne_nil hw
  have hskip : skipSpaces (c :: cs ++ rest) = c :: cs ++ rest :=
    List.dropWhile_cons_of_neg (by simpa using fun h : c = ' ' => hspace (h ▸ List.mem_cons_self))
  rw [List.cons_append, argvOf, ← List.cons_append, hskip, hfirst, hafter, if_neg hw]

/-! ## The table -/

/-- A row of a table of operations; `H` stands for its handlers. -/
structure SisOp (H : Type) where
  name : List Char
  ops : H
  desc : List Char
  deriving DecidableEq

/-- `strcspn(argv[0], "/")`. -/
def slashOffset (argv0 : List Char) : ℕ :=
  (argv0.takeWhile (· ≠ '/')).length

/-- The name and the first word are equal as far as the shorter of the name and of what
stands before the `/` goes. -/
def agrees (argv0 name : List Char) : Bool :=
  let l1 := slashOffset argv0
  let n := if l1 < name.length then l1 else name.length
  name.take n == argv0.take n

/-- An access to `argv`, to the string `argv[k]` from a position on, or to `idx`. -/
inductive ArgvAccess where
  | store (k : ℕ)
  | pointer (k : ℕ)
  | text (k : ℕ) (pos : ℤ)
  | storeIdx (k : ℕ)
  | loadIdx (k : ℕ)
  deriving DecidableEq

/-- The access stays inside `argv`, the strings there are or `idx`, and reads of `idx` only
what was stored. -/
def ArgvAccess.Legal (argv : List (List Char)) (found : ℕ) : ArgvAccess → Prop
  | .store k => k < 10
  | .pointer k => k < 10
  | .text k pos => ∃ s ∈ argv[k]?, 0 ≤ pos ∧ pos ≤ s.length
  | .storeIdx k => k < 100
  | .loadIdx k => k < found

/-- What `parse_cmd` gets to after its loops. -/
inductive ParseAction (H : Type) where
  | nothing
  /-- There is no `argv[0]`, or an array is overrun. -/
  | fault
  | run (op : SisOp H)
  | print (names : List (List Char))
  deriving DecidableEq

section Parse

variable {H : Type}

/-- The accesses of the loop over the table, with `found` rows found before. -/
def matchAccesses (argv0 : List Char) : List (SisOp H) → ℕ → List ArgvAccess
  | [], _ => []
  | op :: ops, found =>
    if agrees argv0 op.name then
      .text 0 0 :: .text 0 0 :: .storeIdx found :: matchAccesses argv0 ops (found + 1)
    else .text 0 0 :: .text 0 0 :: matchAccesses argv0 ops found

/-- The rows whose positions the loop puts into `idx`. -/
def candidates (argv0 : List Char) (ops : List (SisOp H)) : List (SisOp H) :=
  ops.filter (agrees argv0 ·.name)

/-- The rows found for a line. -/
def found (buf : List Char) (ops : List (SisOp H)) : List (SisOp H) :=
  candidates ((argvOf buf).headD []) ops

/-- The accesses of the loops over the line and over the table. -/
def loopAccesses (buf : List Char) (ops : List (SisOp H)) : List ArgvAccess :=
  (List.range (argvOf buf).length).map .store ++ matchAccesses ((argvOf buf).headD []) ops 0

/-- `parse_cmd(buf, ops)` up to the call of a handler : its accesses, and what it gets to. The
table is without its last row. `stale` is the name at the position that `idx[found]` holds,
which is not stored to. -/
def parse (stale : List Char) (ops : List (SisOp H)) (buf : List Char) :
    List ArgvAccess × ParseAction H :=
  let idx := found buf ops
  if buf = [] then ([], .nothing)
  else if argvOf buf = [] ∧ ops ≠ [] ∨ 10 < (argvOf buf).length ∨ 100 < idx.length then
    (loopAccesses buf ops, .fault)
  else match idx with
    | [op] => (loopAccesses buf ops ++ [.loadIdx 0], .run op)
    | _ => (loopAccesses buf ops ++ List.replicate idx.length (.loadIdx idx.length),
        .print (List.replicate idx.length stale))

end Parse

/-! ## `sisops` -/

/-- The handlers `cmd_read`, `cmd_write` and `cmd_exit`. -/
inductive SisCmd where
  | read
  | write
  | exit
  deriving DecidableEq

def sisops : List (SisOp SisCmd) :=
  [⟨['r', 'e', 'a', 'd'], .read, "read[/bhw] [sr,cr,part1] start".toList⟩,
   ⟨['w', 'r', 'i', 't', 'e'], .write, "write[/bhw] [sr,cr,part1] start".toList⟩,
   ⟨['e', 'x', 'i', 't'], .exit, ['e', 'x', 'i', 't']⟩]

/-- The accesses to `argv` of `cmd_read` and `cmd_write`, which take their arguments alike. -/
def argumentAccesses : List (List Char) → List ArgvAccess
  | argv0 :: argv1 :: rest =>
    [.text 0 0, .text 0 (slashOffset argv0 + 1), .text 0 0, .text 0 (argv0.length - 1),
      .text 1 0] ++
      if isName argv1 then
        .text 1 0 :: if (sisregs.find? (·.name = argv1)).isNone then [.text 1 0]
          else .pointer 2 :: if rest = [] then [] else [.text 2 0]
      else [.text 1 0]
  | _ => []

def SisCmd.argAccesses : SisCmd → List (List Char) → List ArgvAccess
  | .read | .write => argumentAccesses
  | .exit => fun _ => []

/-- The accesses of `parse_cmd(buf, sisops)` and the handler it calls. -/
def sisAccesses (stale buf : List Char) : List ArgvAccess :=
  (parse stale sisops buf).1 ++ match (parse stale sisops buf).2 with
    | .run op => op.ops.argAccesses (argvOf buf)
    | _ => []

/-- What is found in memory that was not set : after the NUL of `argv[0]`, in `j`, and as the
name at a position not set. -/
structure Unset where
  beyond : List Char
  j : ℕ → BitVec 32
  stale : List Char

def SisCmd.exec (pw : Password) (u : Unset) (attempts : ℕ) :
    SisCmd → List (List Char) → DebugM ℤ
  | .read, argv => onChip (cmdRead pw u.beyond argv)
  | .write, argv => cmdWrite pw u.beyond u.j attempts argv
  | .exit, _ => return 1

/-- `parse_cmd(buf, sisops)`. -/
def parseCmd (pw : Password) (u : Unset) (attempts : ℕ) (buf : List Char) : DebugM ℤ :=
  match (parse u.stale sisops buf).2 with
  | .nothing => return 0
  | .fault => fun _ => none
  | .run op => do
    let ret ← op.ops.exec pw u attempts (argvOf buf)
    if ret < 0 then
      onChip (printf (op.desc ++ ['\n']))
      return 0
    else if 0 < ret then return ret
    else return 0
  | .print names => do
    onChip (printf (names.flatMap ('\t' :: ·)))
    return 0

/-! ## Which operation runs -/

/-- The part of the first word before its `/`. -/
def cmdWord (buf : List Char) : List Char :=
  ((argvOf buf).headD []).takeWhile (· ≠ '/')

/-- To agree is to abbreviate the name or to go on after it. -/
theorem agrees_iff (argv0 name : List Char) : agrees argv0 name ↔
    argv0.takeWhile (· ≠ '/') <+: name ∨ name <+: argv0.takeWhile (· ≠ '/') := by
  set w := argv0.takeWhile (· ≠ '/') with hw
  have htake : ∀ n ≤ w.length, argv0.take n = w.take n := fun n hn => by
    rw [← List.takeWhile_append_dropWhile (p := (· ≠ '/')) (l := argv0), ← hw,
      List.take_append_of_le_length hn]
  have hl1 : slashOffset argv0 = w.length := rfl
  simp only [agrees, beq_iff_eq, hl1]
  split_ifs with hlt
  · rw [htake _ le_rfl, List.take_length, eq_comm, ← List.prefix_iff_eq_take, iff_self_or]
    exact fun h => absurd h.length_le (not_le.2 hlt)
  · rw [htake _ (not_lt.1 hlt), List.take_length, ← List.prefix_iff_eq_take, iff_or_self]
    exact fun h => (h.eq_of_length_le (not_lt.1 hlt)) ▸ List.prefix_rfl

section Dispatch

variable {H : Type} {stale buf : List Char} {ops : List (SisOp H)}

theorem mem_found {op : SisOp H} : op ∈ found buf ops ↔
    op ∈ ops ∧ (cmdWord buf <+: op.name ∨ op.name <+: cmdWord buf) := by
  rw [found, candidates, List.mem_filter, agrees_iff]
  rfl

theorem ne_nil_of_argvOf (h : argvOf buf ≠ []) : buf ≠ [] := by
  rintro rfl
  exact h (by rw [argvOf])

variable (stale) in
/-- A line with a word, in the arrays. -/
theorem parse_of_argv (hargv : argvOf buf ≠ []) (h10 : (argvOf buf).length ≤ 10)
    (h100 : (found buf ops).length ≤ 100) : parse stale ops buf = match found buf ops with
      | [op] => (loopAccesses buf ops ++ [.loadIdx 0], .run op)
      | _ => (loopAccesses buf ops ++
          List.replicate (found buf ops).length (.loadIdx (found buf ops).length),
        .print (List.replicate (found buf ops).length stale)) := by
  rw [parse, if_neg (ne_nil_of_argvOf hargv), if_neg]
  simp only [hargv, false_and, false_or]
  omega

/-- A line with no word, or past the arrays. -/
theorem parse_of_fault (hbuf : buf ≠ []) (h : argvOf buf = [] ∧ ops ≠ [] ∨
    10 < (argvOf buf).length ∨ 100 < (found buf ops).length) :
    parse stale ops buf = (loopAccesses buf ops, .fault) := by
  rw [parse, if_neg hbuf, if_pos h]

/-- The arrays are kept to, exactly if ten words and a hundred rows are not exceeded. -/
theorem parse_ne_fault_iff (hargv : argvOf buf ≠ []) : (parse stale ops buf).2 ≠ .fault ↔
    (argvOf buf).length ≤ 10 ∧ (found buf ops).length ≤ 100 := by
  refine ⟨fun h => ?_, fun ⟨h10, h100⟩ => ?_⟩
  · by_contra hnot
    exact h (by rw [parse_of_fault (ne_nil_of_argvOf hargv) (by omega)])
  · rw [parse_of_argv stale hargv h10 h100]
    split <;> simp

theorem parse_eq_run_iff (hargv : argvOf buf ≠ []) (h10 : (argvOf buf).length ≤ 10)
    (h100 : (found buf ops).length ≤ 100) {e : SisOp H} :
    (parse stale ops buf).2 = .run e ↔ found buf ops = [e] := by
  rw [parse_of_argv stale hargv h10 h100]
  split <;> simp_all

theorem parse_eq_print (hargv : argvOf buf ≠ []) (h10 : (argvOf buf).length ≤ 10)
    (h100 : (found buf ops).length ≤ 100) (h2 : 2 ≤ (found buf ops).length) :
    (parse stale ops buf).2 = .print (List.replicate (found buf ops).length stale) := by
  rw [parse_of_argv stale hargv h10 h100]
  split
  · next op hop => simp [hop] at h2
  · rfl

variable (buf ops) in
/-- The rows that the word abbreviates. -/
def abbreviated : List (SisOp H) :=
  ops.filter (cmdWord buf <+: ·.name)

theorem mem_abbreviated {e : SisOp H} :
    e ∈ abbreviated buf ops ↔ e ∈ ops ∧ cmdWord buf <+: e.name := by
  rw [abbreviated, List.mem_filter, decide_eq_true_iff]

theorem abbreviated_sublist : (abbreviated buf ops).Sublist (found buf ops) := by
  refine List.monotone_filter_right ops fun e he => ?_
  exact (agrees_iff _ _).2 (Or.inl (of_decide_eq_true he))

variable (stale buf ops) in
/-- The operation run is the one whose name the word abbreviates, and no other. Of several
the names are printed, of none nothing runs. -/
structure DispatchesByPrefix : Prop where
  defined : (parse stale ops buf).2 ≠ .fault
  run_iff : ∀ e ∈ ops, (parse stale ops buf).2 = .run e ↔ cmdWord buf ≠ [] ∧
    cmdWord buf <+: e.name ∧ ∀ e' ∈ ops, e'.name ≠ e.name → ¬cmdWord buf <+: e'.name
  several : 2 ≤ (abbreviated buf ops).length → ∃ names, (parse stale ops buf).2 = .print names ∧
    names.Perm ((abbreviated buf ops).map SisOp.name)
  unknown : (∀ e ∈ ops, ¬cmdWord buf <+: e.name) → ∀ e, (parse stale ops buf).2 ≠ .run e

/-- Where several rows are found, the names printed are no two names. -/
theorem not_replicate_perm {n : ℕ} {x : List Char} {l : List (List Char)} (hnd : l.Nodup)
    (hl : 2 ≤ l.length) : ¬(List.replicate n x).Perm l := by
  intro h
  have hall : ∀ y ∈ l, y = x := fun y hy => List.eq_of_mem_replicate (h.mem_iff.2 hy)
  rw [List.eq_replicate_of_mem hall, List.nodup_replicate] at hnd
  omega

/-- Where several rows are found, none is abbreviated. -/
theorem DispatchesByPrefix.not_prefix (h : DispatchesByPrefix stale buf ops)
    (hnames : (ops.map SisOp.name).Nodup) {names : List (List Char)}
    (hprint : (parse stale ops buf).2 = .print names)
    (hsame : ∃ n x, names = List.replicate n x) (h2 : 2 ≤ (found buf ops).length)
    {e : SisOp H} (he : e ∈ ops) : ¬cmdWord buf <+: e.name := by
  intro hpre
  rcases Nat.lt_or_ge (abbreviated buf ops).length 2 with hlt | hge
  · have hone : abbreviated buf ops = [e] := by
      have hmem : e ∈ abbreviated buf ops := mem_abbreviated.2 ⟨he, hpre⟩
      obtain ⟨a, ha⟩ := List.length_eq_one_iff.1
        (Nat.le_antisymm (Nat.le_of_lt_succ hlt) (List.length_pos_of_mem hmem))
      rw [ha, List.mem_singleton] at hmem
      rw [ha, hmem]
    have hne : cmdWord buf ≠ [] := by
      intro hnil
      have hall : abbreviated buf ops = ops :=
        List.filter_eq_self.2 fun e' _ => by simp [hnil]
      have hle : (found buf ops).length ≤ ops.length := List.length_filter_le _ _
      rw [hall] at hlt
      omega
    have hrun := (h.run_iff e he).2 ⟨hne, hpre, fun e' he' hname hpre' => by
      have hmem : e' ∈ abbreviated buf ops := mem_abbreviated.2 ⟨he', hpre'⟩
      rw [hone, List.mem_singleton] at hmem
      exact hname (by rw [hmem])⟩
    cases hprint.symm.trans hrun
  · obtain ⟨names', hprint', hperm⟩ := h.several hge
    obtain ⟨n, x, rfl⟩ := hsame
    cases hprint.symm.trans hprint'
    refine not_replicate_perm ?_ (by simpa using hge) hperm
    exact (hnames.sublist ((List.filter_sublist).map _))

/-- The operation that the word abbreviates runs, exactly if the line has at most ten words,
an operation found alone is abbreviated by a word that is not empty, and where several are
found the word abbreviates none. -/
theorem parse_dispatches_iff (stale buf : List Char) (ops : List (SisOp H))
    (hnames : (ops.map SisOp.name).Nodup) (hargv : argvOf buf ≠ []) :
    DispatchesByPrefix stale buf ops ↔
      (argvOf buf).length ≤ 10 ∧ (found buf ops).length ≤ 100 ∧
        (∀ e, found buf ops = [e] → cmdWord buf ≠ [] ∧ cmdWord buf <+: e.name) ∧
          (2 ≤ (found buf ops).length → ∀ e ∈ ops, ¬cmdWord buf <+: e.name) := by
  refine ⟨fun h => ?_, fun ⟨h10, h100, hone, hmany⟩ => ⟨?_, fun e he => ?_, fun h2 => ?_, ?_⟩⟩
  · obtain ⟨h10, h100⟩ := (parse_ne_fault_iff hargv).1 h.defined
    refine ⟨h10, h100, fun e he => ?_, fun h2 e he => ?_⟩
    · have hmem : e ∈ ops := (mem_found.1 (he ▸ List.mem_singleton_self e)).1
      obtain ⟨hne, hpre, -⟩ := (h.run_iff e hmem).1 ((parse_eq_run_iff hargv h10 h100).2 he)
      exact ⟨hne, hpre⟩
    · exact h.not_prefix hnames (parse_eq_print hargv h10 h100 h2) ⟨_, _, rfl⟩ h2 he
  · exact (parse_ne_fault_iff hargv).2 ⟨h10, h100⟩
  · rw [parse_eq_run_iff hargv h10 h100]
    refine ⟨fun hf => ?_, fun ⟨hne, hpre, hother⟩ => ?_⟩
    · obtain ⟨hne, hpre⟩ := hone e hf
      refine ⟨hne, hpre, fun e' he' hname hpre' => hname ?_⟩
      have hmem : e' ∈ found buf ops := mem_found.2 ⟨he', Or.inl hpre'⟩
      rw [hf, List.mem_singleton] at hmem
      rw [hmem]
    · have hmem : e ∈ found buf ops := mem_found.2 ⟨he, Or.inl hpre⟩
      rcases hf : found buf ops with _ | ⟨e', _ | ⟨e'', rest⟩⟩
      · simp [hf] at hmem
      · rw [hf, List.mem_singleton] at hmem
        rw [hmem]
      · exact absurd hpre (hmany (by simp [hf]) e he)
  · obtain ⟨e, he⟩ := List.exists_mem_of_length_pos (l := abbreviated buf ops) (by
      exact Nat.zero_lt_two.trans_le h2)
    obtain ⟨hmem, hpre⟩ := mem_abbreviated.1 he
    exact absurd hpre (hmany (h2.trans abbreviated_sublist.length_le) e hmem)
  · intro hno e hrun
    have hf := (parse_eq_run_iff hargv h10 h100).1 hrun
    exact hno e (mem_found.1 (hf ▸ List.mem_singleton_self e)).1 (hone e hf).2

end Dispatch

theorem argvOf_word {w : List Char} (hw : w ≠ []) (hspace : ' ' ∉ w) : argvOf w = [w] := by
  have h : argvOf (w ++ []) = w :: argvOf [] := argvOf_append hw hspace (by simp)
  rwa [List.append_nil, argvOf] at h

/-- `ex` abbreviates `exit`. -/
theorem parse_dispatches_iff_ex : DispatchesByPrefix [] ['e', 'x'] sisops := by
  have hargv : argvOf ['e', 'x'] = [['e', 'x']] := argvOf_word (by simp) (by decide)
  have hfound : found ['e', 'x'] sisops =
      [⟨['e', 'x', 'i', 't'], .exit, ['e', 'x', 'i', 't']⟩] := by
    rw [found, hargv]
    decide
  have hword : cmdWord ['e', 'x'] = ['e', 'x'] := by
    rw [cmdWord, hargv]
    decide
  refine (parse_dispatches_iff [] ['e', 'x'] sisops (by decide) (by simp [hargv])).2 ?_
  rw [hargv, hfound, hword]
  refine ⟨by decide, by decide, fun e he => ?_, by simp⟩
  obtain rfl := List.singleton_inj.1 he
  exact ⟨by simp, ['i', 't'], rfl⟩

/-- `reads` abbreviates nothing and runs the command read. -/
theorem reads_not_dispatched : ¬DispatchesByPrefix [] ['r', 'e', 'a', 'd', 's'] sisops := by
  intro h
  have hargv : argvOf ['r', 'e', 'a', 'd', 's'] = [['r', 'e', 'a', 'd', 's']] :=
    argvOf_word (by simp) (by decide)
  have hfound : found ['r', 'e', 'a', 'd', 's'] sisops =
      [⟨['r', 'e', 'a', 'd'], .read, "read[/bhw] [sr,cr,part1] start".toList⟩] := by
    rw [found, hargv]
    decide
  have hrun : (parse [] sisops ['r', 'e', 'a', 'd', 's']).2 = .run _ :=
    (parse_eq_run_iff (by simp [hargv]) (by simp [hargv]) (by simp [hfound])).2 hfound
  obtain ⟨-, hpre, -⟩ := (h.run_iff _ List.mem_cons_self).1 hrun
  rw [cmdWord, hargv] at hpre
  exact absurd hpre (by decide)

/-! ## Accesses -/

theorem slashOffset_lt_iff (argv0 : List Char) :
    slashOffset argv0 < argv0.length ↔ '/' ∈ argv0 := by
  rw [slashOffset, ← not_iff_not, not_lt]
  refine ⟨fun h hmem => ?_, fun h => ?_⟩
  · have heq := (List.takeWhile_prefix (· ≠ '/')).eq_of_length_le h
    have := List.mem_takeWhile_imp (heq.symm ▸ hmem : '/' ∈ argv0.takeWhile (· ≠ '/'))
    simp at this
  · rw [List.takeWhile_eq_self_iff.2 fun c hc => by simpa using fun h' : c = '/' => h (h' ▸ hc)]

theorem legal_text_zero {argv : List (List Char)} {found k : ℕ} (hk : k < argv.length) :
    ArgvAccess.Legal argv found (.text k 0) :=
  ⟨argv[k], List.getElem?_eq_getElem hk, le_rfl, Int.natCast_nonneg _⟩

/-- With no `/` the count is read past the end of the first word, if there are arguments. -/
theorem legal_argumentAccesses {argv : List (List Char)} (hne : ∀ w ∈ argv, w ≠ [])
    (found : ℕ) : (∀ a ∈ argumentAccesses argv, a.Legal argv found) ↔
      (2 ≤ argv.length → ∀ argv0 ∈ argv.head?, '/' ∈ argv0) := by
  match argv with
  | [] => simp [argumentAccesses]
  | [_] => simp [argumentAccesses]
  | argv0 :: argv1 :: rest =>
    have hpos : 0 < argv0.length := List.length_pos_of_ne_nil (hne argv0 List.mem_cons_self)
    have hslash : ArgvAccess.Legal (argv0 :: argv1 :: rest) found
        (.text 0 (slashOffset argv0 + 1)) ↔ '/' ∈ argv0 := by
      rw [← slashOffset_lt_iff]
      refine ⟨fun ⟨s, hs, _, hle⟩ => ?_, fun h => ⟨argv0, rfl, by omega, by omega⟩⟩
      cases hs
      omega
    have hlast : ArgvAccess.Legal (argv0 :: argv1 :: rest) found (.text 0 (argv0.length - 1)) :=
      ⟨argv0, rfl, by omega, by omega⟩
    refine ⟨fun h _ w hw => ?_, fun h a ha => ?_⟩
    · cases hw
      exact hslash.1 (h _ (List.mem_append_left _ (by simp)))
    · rcases List.mem_append.1 ha with ha | ha
      · simp only [List.mem_cons, List.not_mem_nil, or_false] at ha
        rcases ha with rfl | rfl | rfl | rfl | rfl
        · exact legal_text_zero (by simp)
        · exact hslash.2 (h (by simp) argv0 rfl)
        · exact legal_text_zero (by simp)
        · exact hlast
        · exact legal_text_zero (by simp)
      · split_ifs at ha with hname hfind hrest
        · simp only [List.mem_cons, List.not_mem_nil, or_false, or_self] at ha
          exact ha ▸ legal_text_zero (by simp)
        · simp only [List.mem_cons, List.not_mem_nil, or_false] at ha
          rcases ha with rfl | rfl
          · exact legal_text_zero (by simp)
          · exact (by decide : 2 < 10)
        · simp only [List.mem_cons, List.not_mem_nil, or_false] at ha
          rcases ha with rfl | rfl | rfl
          · exact legal_text_zero (by simp)
          · exact (by decide : 2 < 10)
          · exact legal_text_zero (by simpa using List.length_pos_of_ne_nil hrest)
        · simp only [List.mem_cons, List.not_mem_nil, or_false] at ha
          exact ha ▸ legal_text_zero (by simp)

/-- What the loop over the table accesses. -/
theorem mem_matchAccesses {H : Type} {argv0 : List Char} {ops : List (SisOp H)} {n : ℕ}
    {a : ArgvAccess} (h : a ∈ matchAccesses argv0 ops n) :
    a = .text 0 0 ∨ ∃ k < n + ops.length, a = .storeIdx k := by
  induction ops generalizing n with
  | nil => simp [matchAccesses] at h
  | cons op ops ih =>
    rw [matchAccesses] at h
    split_ifs at h
    · simp only [List.mem_cons] at h
      rcases h with rfl | rfl | rfl | h
      · exact Or.inl rfl
      · exact Or.inl rfl
      · exact Or.inr ⟨n, by simp, rfl⟩
      · refine (ih h).imp_right fun ⟨k, hk, ha⟩ => ⟨k, ?_, ha⟩
        rw [List.length_cons]
        omega
    · simp only [List.mem_cons] at h
      rcases h with rfl | rfl | h
      · exact Or.inl rfl
      · exact Or.inl rfl
      · refine (ih h).imp_right fun ⟨k, hk, ha⟩ => ⟨k, ?_, ha⟩
        rw [List.length_cons]
        omega

section Safe

variable {stale buf : List Char}

/-- To agree, word and name begin alike. -/
theorem head_of_agrees {c : Char} {w cs : List Char} (h : agrees w (c :: cs))
    (hne : w.takeWhile (· ≠ '/') ≠ []) : w.head? = some c := by
  obtain ⟨d, ds, hw⟩ := List.exists_cons_of_ne_nil hne
  have hhead : w.head? = some d := by
    rw [← List.takeWhile_append_dropWhile (p := (· ≠ '/')) (l := w), hw]
    rfl
  rw [agrees_iff, hw, List.cons_prefix_cons, List.cons_prefix_cons] at h
  rcases h with ⟨rfl, -⟩ | ⟨rfl, -⟩
  · exact hhead
  · exact hhead

/-- A word that is not empty agrees with one name at most. -/
theorem length_found_le (h : cmdWord buf ≠ []) : (found buf sisops).length ≤ 1 := by
  have hexcl : ∀ {c d : Char} {cs ds : List Char}, agrees ((argvOf buf).headD []) (c :: cs) →
      agrees ((argvOf buf).headD []) (d :: ds) → c = d := fun hc hd =>
    Option.some.inj ((head_of_agrees hc h).symm.trans (head_of_agrees hd h))
  unfold found candidates sisops
  simp only [List.filter_cons, List.filter_nil]
  split_ifs with hread hwrite hexit hexit hexit hwrite hexit
  · exact absurd (hexcl hread hwrite) (by decide)
  · exact absurd (hexcl hread hwrite) (by decide)
  · exact absurd (hexcl hread hexit) (by decide)
  · exact le_rfl
  · exact absurd (hexcl hwrite hexit) (by decide)
  · exact le_rfl
  · exact le_rfl
  · exact Nat.zero_le _

theorem found_eq_sisops (h : cmdWord buf = []) : found buf sisops = sisops := by
  refine List.filter_eq_self.2 fun op _ => (agrees_iff _ _).2 (Or.inl ?_)
  change cmdWord buf <+: op.name
  rw [h]
  exact List.nil_prefix

/-- The loops stay inside their arrays on lines of one to ten words. -/
theorem legal_loopAccesses_iff (n : ℕ) : (∀ a ∈ loopAccesses buf sisops, a.Legal (argvOf buf) n) ↔
    argvOf buf ≠ [] ∧ (argvOf buf).length ≤ 10 := by
  refine ⟨fun h => ⟨fun hnil => ?_, ?_⟩, fun ⟨hargv, h10⟩ a ha => ?_⟩
  · have hmem : ArgvAccess.text 0 0 ∈ matchAccesses ((argvOf buf).headD []) sisops 0 := by
      rw [sisops, matchAccesses]
      split_ifs <;> exact List.mem_cons_self
    obtain ⟨s, hs, -⟩ := h _ (List.mem_append_right _ hmem)
    simp [hnil] at hs
  · by_contra hlt
    have hmem : ArgvAccess.store 10 ∈ (List.range (argvOf buf).length).map .store :=
      List.mem_map_of_mem (List.mem_range.2 (not_le.1 hlt))
    exact absurd (h _ (List.mem_append_left _ hmem)) (lt_irrefl 10)
  · rcases List.mem_append.1 ha with ha | ha
    · obtain ⟨k, hk, rfl⟩ := List.mem_map.1 ha
      exact (List.mem_range.1 hk).trans_le h10
    · rcases mem_matchAccesses ha with rfl | ⟨k, hk, rfl⟩
      · exact legal_text_zero (List.length_pos_of_ne_nil hargv)
      · exact hk.trans (by decide)

/-- `parse_cmd` and the handlers keep to `argv`, its strings and `idx`. -/
def ParseSafe (stale buf : List Char) : Prop :=
  ∀ a ∈ sisAccesses stale buf, a.Legal (argvOf buf) (found buf sisops).length

theorem mem_parse_of_mem_loopAccesses (h : buf ≠ []) {a : ArgvAccess}
    (ha : a ∈ loopAccesses buf sisops) : a ∈ (parse stale sisops buf).1 := by
  rw [parse, if_neg h]
  split_ifs
  · exact ha
  · split <;> exact List.mem_append_left _ ha

theorem mem_found_sisops {op : SisOp SisCmd} :
    op ∈ found buf sisops ↔ op ∈ sisops ∧ agrees ((argvOf buf).headD []) op.name := by
  rw [found, candidates, List.mem_filter]

/-- The handler that is found keeps to its arguments. -/
theorem legal_argAccesses_iff {op : SisOp SisCmd} (hop : found buf sisops = [op])
    {argv0 : List Char} {rest : List (List Char)} (hargv : argvOf buf = argv0 :: rest) (n : ℕ) :
    (∀ a ∈ op.ops.argAccesses (argvOf buf), a.Legal (argvOf buf) n) ↔ (2 ≤ (argvOf buf).length →
      agrees argv0 ['r', 'e', 'a', 'd'] ∨ agrees argv0 ['w', 'r', 'i', 't', 'e'] →
        '/' ∈ argv0) := by
  have hcmd (hag : agrees argv0 ['r', 'e', 'a', 'd'] ∨ agrees argv0 ['w', 'r', 'i', 't', 'e']) :
      (∀ a ∈ argumentAccesses (argvOf buf), a.Legal (argvOf buf) n) ↔
        (2 ≤ (argvOf buf).length →
          agrees argv0 ['r', 'e', 'a', 'd'] ∨ agrees argv0 ['w', 'r', 'i', 't', 'e'] →
            '/' ∈ argv0) := by
    rw [legal_argumentAccesses (fun w hw => ne_nil_of_mem_argvOf hw), hargv]
    exact ⟨fun h h2 _ => h h2 argv0 rfl, fun h h2 w hw => by cases hw; exact h h2 hag⟩
  have honly : ∀ op' ∈ sisops, agrees argv0 op'.name → op' = op := fun op' hmem hag => by
    have hf : op' ∈ found buf sisops := mem_found_sisops.2 ⟨hmem, by rwa [hargv]⟩
    rwa [hop, List.mem_singleton] at hf
  obtain ⟨hmem, hag⟩ := mem_found_sisops.1 (hop ▸ List.mem_singleton_self op)
  rw [hargv] at hag
  simp only [sisops, List.mem_cons, List.not_mem_nil, or_false] at hmem
  rcases hmem with rfl | rfl | rfl
  · exact hcmd (Or.inl hag)
  · exact hcmd (Or.inr hag)
  · refine iff_of_true (fun a ha => absurd ha List.not_mem_nil) fun _ hag' => ?_
    rcases hag' with hag' | hag'
    · cases honly _ List.mem_cons_self hag'
    · cases honly _ (List.mem_cons_of_mem _ List.mem_cons_self) hag'

/-- The accesses stay inside on an empty line, and on lines of one to ten words of which the
first begins with no `/`, and has one if it gets to a read or write with arguments. -/
theorem parse_safe_iff (stale buf : List Char) : ParseSafe stale buf ↔
    buf = [] ∨ argvOf buf ≠ [] ∧ (argvOf buf).length ≤ 10 ∧ cmdWord buf ≠ [] ∧
      (2 ≤ (argvOf buf).length → ∀ argv0 ∈ (argvOf buf).head?,
        agrees argv0 ['r', 'e', 'a', 'd'] ∨ agrees argv0 ['w', 'r', 'i', 't', 'e'] →
          '/' ∈ argv0) := by
  by_cases hbuf : buf = []
  · simp [hbuf, ParseSafe, sisAccesses, parse]
  have h3 : (found buf sisops).length ≤ 3 := List.length_filter_le _ _
  simp only [hbuf, false_or]
  refine ⟨fun h => ?_, fun ⟨hargv, h10, hw, hslash⟩ => ?_⟩
  · obtain ⟨hargv, h10⟩ := (legal_loopAccesses_iff _).1 fun a ha =>
      h a (List.mem_append_left _ (mem_parse_of_mem_loopAccesses hbuf ha))
    have hparse := parse_of_argv stale hargv h10 (h3.trans (by decide))
    have hw : cmdWord buf ≠ [] := by
      intro hnil
      have hmem : ArgvAccess.loadIdx 3 ∈ (parse stale sisops buf).1 := by
        rw [hparse, found_eq_sisops hnil]
        exact List.mem_append_right _ List.mem_cons_self
      have hlt := h _ (List.mem_append_left _ hmem)
      rw [found_eq_sisops hnil] at hlt
      exact absurd hlt (lt_irrefl 3)
    refine ⟨hargv, h10, hw, fun h2 argv0 hargv0 hag => ?_⟩
    obtain ⟨rest, hcons⟩ := List.head?_eq_some_iff.1 (Option.mem_def.1 hargv0)
    have hfound : found buf sisops ≠ [] := by
      rcases hag with hag | hag
      · refine List.ne_nil_of_mem (mem_found_sisops.2 ⟨List.mem_cons_self, ?_⟩)
        rwa [hcons]
      · refine List.ne_nil_of_mem (mem_found_sisops.2
          ⟨List.mem_cons_of_mem _ List.mem_cons_self, ?_⟩)
        rwa [hcons]
    obtain ⟨op, hop⟩ := List.length_eq_one_iff.1
      (Nat.le_antisymm (length_found_le hw) (List.length_pos_of_ne_nil hfound))
    refine (legal_argAccesses_iff hop hcons _).1 (fun a ha => h a ?_) h2 hag
    refine List.mem_append_right _ ?_
    rw [hparse, hop]
    exact ha
  · have hparse := parse_of_argv stale hargv h10 (h3.trans (by decide))
    have hloop := (legal_loopAccesses_iff (found buf sisops).length).2 ⟨hargv, h10⟩
    obtain ⟨argv0, rest, hcons⟩ := List.exists_cons_of_ne_nil hargv
    rcases hf : found buf sisops with _ | ⟨op, _ | ⟨op', ops⟩⟩
    · rw [hf] at hparse
      unfold ParseSafe sisAccesses
      rw [hparse]
      simpa using hloop
    · rw [hf] at hparse
      have hargs := (legal_argAccesses_iff hf hcons (found buf sisops).length).2 fun h2 hag =>
        hslash h2 argv0 (by rw [hcons]; rfl) hag
      unfold ParseSafe sisAccesses
      rw [hparse]
      intro a ha
      rcases List.mem_append.1 ha with ha | ha
      · rcases List.mem_append.1 ha with ha | ha
        · exact hloop a ha
        · rw [List.mem_singleton.1 ha, hf]
          exact Nat.one_pos
      · exact hargs a ha
    · have hle := length_found_le hw
      simp [hf] at hle

end Safe

/-- On `read sr` the count is read from after the NUL of `read`. -/
theorem read_sr_not_safe : ¬ParseSafe [] ['r', 'e', 'a', 'd', ' ', 's', 'r'] := by
  intro h
  have hargv : argvOf ['r', 'e', 'a', 'd', ' ', 's', 'r'] = [['r', 'e', 'a', 'd'], ['s', 'r']] := by
    rw [show ['r', 'e', 'a', 'd', ' ', 's', 'r'] = ['r', 'e', 'a', 'd'] ++ [' ', 's', 'r'] from rfl,
      argvOf_append (by simp) (by decide) (by simp), argvOf]
    rw [show firstWord (skipSpaces [' ', 's', 'r']) = ['s', 'r'] from rfl,
      show afterWord (skipSpaces [' ', 's', 'r']) = [] from rfl, if_neg (by simp), argvOf]
  have hfound : found ['r', 'e', 'a', 'd', ' ', 's', 'r'] sisops =
      [⟨['r', 'e', 'a', 'd'], .read, "read[/bhw] [sr,cr,part1] start".toList⟩] := by
    rw [found, hargv]
    decide
  have hne : argvOf ['r', 'e', 'a', 'd', ' ', 's', 'r'] ≠ [] := by simp [hargv]
  have h100 : (found ['r', 'e', 'a', 'd', ' ', 's', 'r'] sisops).length ≤ 100 := by simp [hfound]
  have hparse := parse_of_argv [] hne (by simp [hargv]) h100
  rw [hfound] at hparse
  have hmem : ArgvAccess.text 0 5 ∈ sisAccesses [] ['r', 'e', 'a', 'd', ' ', 's', 'r'] := by
    rw [sisAccesses, hparse]
    refine List.mem_append_right _ ?_
    change _ ∈ argumentAccesses _
    rw [hargv]
    decide
  obtain ⟨s, hs, -, hle⟩ := h _ hmem
  rw [hargv] at hs
  cases hs
  exact absurd hle (by decide)

end LxToolset
