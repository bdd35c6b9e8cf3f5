import LxToolset.SisParse

/-!
# The lines of sis_debug

What `main` should hand to `parse_cmd` of a text : `commandLines`, its non-empty lines up to the
first exit command, with `afterExit` left. `commandLines_of_blank`, `commandLines_of_exit` and
`commandLines_of_next` go from line to line; `weight_commandLines` and `lastLen_of_exit` are two
counts of characters by which lines are told from pieces of lines.
-/

namespace LxToolset

/-! ## Prefixes -/

theorem takeWhile_prefix_takeWhile {α : Type*} (p : α → Bool) {a b : List α} (h : a <+: b) :
    a.takeWhile p <+: b.takeWhile p := by
  obtain ⟨z, rfl⟩ := h
  rw [List.takeWhile_append]
  split_ifs with hall
  · exact (List.takeWhile_prefix p).trans (List.prefix_append _ _)
  · exact List.prefix_rfl

theorem dropWhile_prefix_dropWhile {α : Type*} (p : α → Bool) {a b : List α} (h : a <+: b) :
    a.dropWhile p <+: b.dropWhile p := by
  obtain ⟨z, rfl⟩ := h
  rw [List.dropWhile_append]
  split_ifs with hnil
  · rw [List.isEmpty_iff.1 hnil]
    exact List.nil_prefix
  · exact List.prefix_append _ _

/-! ## Commands -/

/-- The line is an exit command. -/
def runsExit (line : List Char) : Bool :=
  match (parse [] sisops line).2 with
  | .run op => op.ops = .exit
  | _ => false

/-- A line that runs something has one row found for it, from a word that is not empty. -/
theorem found_of_run {stale line : List Char} {op : SisOp SisCmd}
    (h : (parse stale sisops line).2 = .run op) :
    found line sisops = [op] ∧ cmdWord line ≠ [] ∧
      ∀ stale', (parse stale' sisops line).2 = .run op := by
  have hfound : found line sisops = [op] := by
    unfold parse at h
    dsimp only at h
    split_ifs at h
    split at h
    · next op' hop =>
      cases h
      exact hop
    · cases h
  refine ⟨hfound, fun hnil => ?_, fun stale' => ?_⟩
  · have hlen := congrArg List.length (found_eq_sisops hnil)
    rw [hfound] at hlen
    cases hlen
  · unfold parse at h ⊢
    dsimp only at h ⊢
    split_ifs at h ⊢
    rw [hfound]

theorem runsExit_iff (stale line : List Char) : runsExit line = true ↔
    ∃ op, (parse stale sisops line).2 = .run op ∧ op.ops = .exit := by
  have hdef : runsExit line = true ↔
      ∃ op, (parse [] sisops line).2 = .run op ∧ op.ops = .exit := by
    unfold runsExit
    split
    · next op hop => simp [hop]
    · next hno => simpa using fun op hop => absurd hop (hno op)
  rw [hdef]
  exact ⟨fun ⟨op, hop, hexit⟩ => ⟨op, (found_of_run hop).2.2 stale, hexit⟩,
    fun ⟨op, hop, hexit⟩ => ⟨op, (found_of_run hop).2.2 [], hexit⟩⟩

@[simp]
theorem runsExit_nil : runsExit [] = false := by
  simp [runsExit, parse]

/-- The first word of a line. -/
theorem head_argvOf (p : List Char) : (argvOf p).headD [] = firstWord (skipSpaces p) := by
  cases p with
  | nil =>
    rw [argvOf]
    rfl
  | cons c cs =>
    rw [argvOf]
    split_ifs with hnil
    · have hskip : skipSpaces (c :: cs) = [] := by
        by_contra hne
        obtain ⟨d, ds, hds⟩ := List.exists_cons_of_ne_nil hne
        have hd : d ≠ ' ' := by
          have hhead := List.head?_dropWhile_not (· = ' ') (c :: cs)
          rw [show (c :: cs).dropWhile (· = ' ') = d :: ds from hds] at hhead
          simpa using hhead
        rw [hds, firstWord, List.takeWhile_cons_of_pos (by simpa using hd)] at hnil
        cases hnil
      rw [hskip]
      change (argvOf []).headD [] = []
      rw [argvOf]
      rfl
    · rfl

/-- The words of a beginning of a line begin as those of the line. -/
theorem firstWord_prefix {x w : List Char} (h : x <+: w) :
    firstWord (skipSpaces x) <+: firstWord (skipSpaces w) :=
  takeWhile_prefix_takeWhile _ (dropWhile_prefix_dropWhile _ h)

/-- No beginning of a write command is an exit command. -/
theorem not_runsExit_of_write {stale x w : List Char} (h : x <+: w) {op : SisOp SisCmd}
    (hrun : (parse stale sisops w).2 = .run op) (hwrite : op.ops = .write) :
    runsExit x = false := by
  rw [← Bool.not_eq_true]
  intro hexit
  obtain ⟨op', hrun', hexit'⟩ := (runsExit_iff [] x).1 hexit
  obtain ⟨hfound, hne, -⟩ := found_of_run hrun
  obtain ⟨hfound', hne', -⟩ := found_of_run hrun'
  obtain ⟨hmem, hag⟩ := mem_found_sisops.1 (hfound ▸ List.mem_singleton_self op)
  obtain ⟨hmem', hag'⟩ := mem_found_sisops.1 (hfound' ▸ List.mem_singleton_self op')
  have hname : op.name = ['w', 'r', 'i', 't', 'e'] := by
    simp only [sisops, List.mem_cons, List.not_mem_nil, or_false] at hmem
    rcases hmem with rfl | rfl | rfl <;> first | rfl | cases hwrite
  have hname' : op'.name = ['e', 'x', 'i', 't'] := by
    simp only [sisops, List.mem_cons, List.not_mem_nil, or_false] at hmem'
    rcases hmem' with rfl | rfl | rfl <;> first | rfl | cases hexit'
  rw [hname] at hag
  rw [hname'] at hag'
  have hw := head_of_agrees hag hne
  have hx := head_of_agrees hag' hne'
  have hpre := firstWord_prefix h
  rw [← head_argvOf, ← head_argvOf] at hpre
  obtain ⟨z, hz⟩ := hpre
  obtain ⟨cs, hcs⟩ := List.head?_eq_some_iff.1 hx
  rw [← hz, hcs] at hw
  cases hw

/-! ## Lines up to the first exit command -/

/-- The lines up to the first exit command, and it. -/
def upToExit (ls : List (List Char)) : List (List Char) :=
  ls.takeWhile (!runsExit ·) ++ (ls.dropWhile (!runsExit ·)).take 1

/-- The non-empty lines of a text up to the first exit command. -/
def commandLines (text : List Char) : List (List Char) :=
  upToExit ((text.splitOn '\n').filter (· ≠ []))

/-- What follows the line of the first exit command. -/
def afterExit (text : List Char) : List Char :=
  ['\n'].intercalate ((text.splitOn '\n').dropWhile (!runsExit ·)).tail

theorem commandLines_nil : commandLines [] = [] := by
  simp [commandLines, upToExit]

theorem afterExit_nil : afterExit [] = [] := by
  simp [afterExit]

section Lines

variable {text : List Char}

theorem commandLines_of_blank (text : List Char) :
    commandLines ('\n' :: text) = commandLines text := by
  unfold commandLines
  rw [splitOn_newline ('\n' :: text)]
  simp [lineOf, afterLine]

theorem afterExit_of_blank (text : List Char) : afterExit ('\n' :: text) = afterExit text := by
  unfold afterExit
  rw [splitOn_newline ('\n' :: text)]
  simp [lineOf, afterLine]

theorem commandLines_of_exit (hline : lineOf text ≠ []) (hexit : runsExit (lineOf text) = true) :
    commandLines text = [lineOf text] := by
  unfold commandLines
  rw [splitOn_newline, List.filter_cons_of_pos (by simpa using hline)]
  simp [upToExit, hexit]

theorem afterExit_of_exit (hexit : runsExit (lineOf text) = true) :
    afterExit text = afterLine text := by
  unfold afterExit
  rw [splitOn_newline, List.dropWhile_cons_of_neg (by simp [hexit]), List.tail_cons]
  split_ifs with hnl
  · exact List.intercalate_splitOn _
  · rw [afterLine_eq_nil hnl]
    rfl

/-- The lines after one that is no exit command. -/
theorem commandLines_of_next (hline : lineOf text ≠ [])
    (hexit : runsExit (lineOf text) = false) :
    commandLines text = lineOf text :: commandLines (afterLine text) := by
  unfold commandLines
  rw [splitOn_newline, List.filter_cons_of_pos (by simpa using hline)]
  split_ifs with hnl
  · simp [upToExit, hexit]
  · simp [upToExit, hexit, afterLine_eq_nil hnl]

/-- A line that is not empty is the first. -/
theorem commandLines_head (hline : lineOf text ≠ []) :
    ∃ ls, commandLines text = lineOf text :: ls := by
  rcases hexit : runsExit (lineOf text) with _ | _
  · exact ⟨_, commandLines_of_next hline hexit⟩
  · exact ⟨[], commandLines_of_exit hline hexit⟩

theorem afterExit_of_next (hexit : runsExit (lineOf text) = false) :
    afterExit text = afterExit (afterLine text) := by
  unfold afterExit
  rw [splitOn_newline, List.dropWhile_cons_of_pos (by simp [hexit])]
  split_ifs with hnl
  · rfl
  · simp [afterLine_eq_nil hnl]

end Lines

/-- A proof about a text, line by line. -/
theorem line_induction {P : List Char → Prop} (nil : P [])
    (blank : ∀ text, P text → P ('\n' :: text))
    (line : ∀ text, lineOf text ≠ [] → P (afterLine text) → P text) (text : List Char) :
    P text := by
  induction h : text.length using Nat.strong_induction_on generalizing text with
  | _ n ih =>
    subst h
    by_cases htext : text = []
    · exact htext ▸ nil
    by_cases hline : lineOf text = []
    · have hcons := eq_cons_of_lineOf htext hline
      rw [hcons]
      refine blank _ (ih _ ?_ _ rfl)
      exact length_afterLine_lt (hcons ▸ List.mem_cons_self)
    · refine line text hline ?_
      by_cases hnl : '\n' ∈ text
      · exact ih _ (length_afterLine_lt hnl) _ rfl
      · exact afterLine_eq_nil hnl ▸ nil

/-! ## Characters of lines -/

/-- The characters that are no newline. -/
def weight (text : List Char) : ℕ :=
  text.countP (· ≠ '\n')

theorem weight_append (a b : List Char) : weight (a ++ b) = weight a + weight b :=
  List.countP_append

theorem weight_of_suffix {a b : List Char} (h : a <:+ b) : weight a ≤ weight b :=
  h.sublist.countP_le

theorem weight_of_not_mem {a : List Char} (h : '\n' ∉ a) : weight a = a.length :=
  List.countP_eq_length.2 fun c hc => by simpa using fun h' : c = '\n' => h (h' ▸ hc)

/-- The first line and what follows. -/
theorem weight_line (text : List Char) :
    weight text = (lineOf text).length + weight (afterLine text) := by
  by_cases hnl : '\n' ∈ text
  · conv_lhs => rw [← lineOf_append hnl]
    rw [weight_append, weight_of_not_mem (not_mem_lineOf text)]
    rfl
  · rw [lineOf_eq_self hnl, afterLine_eq_nil hnl, weight_of_not_mem hnl]
    rfl

/-- Up to the first exit command every character is in a line. -/
theorem weight_commandLines (text : List Char) :
    (commandLines text).flatten.length + weight (afterExit text) = weight text := by
  induction text using line_induction with
  | nil =>
    rw [commandLines_nil, afterExit_nil]
    rfl
  | blank text ih =>
    rw [commandLines_of_blank, afterExit_of_blank, ih]
    rfl
  | line text hline ih =>
    rw [weight_line text]
    rcases hexit : runsExit (lineOf text) with _ | _
    · rw [commandLines_of_next hline hexit, afterExit_of_next hexit, ← ih, List.flatten_cons,
        List.length_append]
      omega
    · rw [commandLines_of_exit hline hexit, afterExit_of_exit hexit, List.flatten_singleton]

/-- The length of the last line that is not empty. -/
def lastLen (text : List Char) : ℕ :=
  ((text.reverse.dropWhile (· = '\n')).takeWhile (· ≠ '\n')).length

theorem lastLen_of_suffix {a b : List Char} (h : a <:+ b) : lastLen a ≤ lastLen b :=
  (takeWhile_prefix_takeWhile _
    (dropWhile_prefix_dropWhile _ (List.reverse_prefix.2 h))).length_le

/-- What stands before the last line does not count. -/
theorem lastLen_append {b : List Char} (h : 0 < lastLen b) (a : List Char) :
    lastLen (a ++ '\n' :: b) = lastLen b := by
  unfold lastLen at h ⊢
  rw [List.reverse_append, List.reverse_cons, List.append_assoc, List.dropWhile_append]
  split_ifs with hnil
  · rw [List.isEmpty_iff.1 hnil] at h
    exact absurd h (lt_irrefl 0)
  · rw [List.takeWhile_append]
    split_ifs with hall
    · rw [hall, List.length_append]
      rfl
    · rfl

/-- One line, with its newline or without. -/
theorem lastLen_line {a : List Char} (h : '\n' ∉ a) :
    lastLen a = a.length ∧ lastLen (a ++ ['\n']) = a.length := by
  have hkeep : ∀ c ∈ a.reverse, decide (c ≠ '\n') = true := fun c hc => by
    simpa using fun h' : c = '\n' => h (h' ▸ List.mem_reverse.1 hc)
  have hdrop : a.reverse.dropWhile (· = '\n') = a.reverse := by
    cases hr : a.reverse with
    | nil => rfl
    | cons c cs =>
      have hc := hkeep c (hr ▸ List.mem_cons_self)
      exact List.dropWhile_cons_of_neg (by simpa using hc)
  have hone : lastLen a = a.length := by
    rw [lastLen, hdrop, List.takeWhile_eq_self_iff.2 hkeep, List.length_reverse]
  refine ⟨hone, ?_⟩
  rw [lastLen, List.reverse_append, List.reverse_singleton, List.singleton_append,
    List.dropWhile_cons_of_pos (by simp)]
  exact hone

/-- Where nothing follows the first exit command, its line is the last. -/
theorem lastLen_of_exit {text x : List Char} (hlast : (commandLines text).getLast? = some x)
    (hx : runsExit x = true) (hafter : afterExit text = []) : lastLen text = x.length := by
  have hpos : 0 < x.length := List.length_pos_iff.2 fun hnil => by
    rw [hnil, runsExit_nil] at hx
    cases hx
  induction text using line_induction with
  | nil =>
    rw [commandLines_nil] at hlast
    cases hlast
  | blank text ih =>
    rw [commandLines_of_blank] at hlast
    rw [afterExit_of_blank] at hafter
    have hlen := ih hlast hafter
    exact (lastLen_append (hlen ▸ hpos) []).trans hlen
  | line text hline ih =>
    rcases hexit : runsExit (lineOf text) with _ | _
    · rw [commandLines_of_next hline hexit, List.getLast?_cons] at hlast
      rw [afterExit_of_next hexit] at hafter
      rcases hrest : (commandLines (afterLine text)).getLast? with _ | y
      · rw [hrest] at hlast
        cases hlast
        cases hexit.symm.trans hx
      · rw [hrest] at hlast
        obtain rfl := Option.some.inj hlast
        have hlen := ih hrest hafter
        have hnl : '\n' ∈ text := by
          by_contra hnl
          rw [afterLine_eq_nil hnl, commandLines_nil] at hrest
          cases hrest
        rw [← lineOf_append hnl]
        exact (lastLen_append (hlen ▸ hpos) _).trans hlen
    · rw [commandLines_of_exit hline hexit] at hlast
      rw [afterExit_of_exit hexit] at hafter
      cases hlast
      obtain ⟨hone, hnewline⟩ := lastLen_line (not_mem_lineOf text)
      by_cases hnl : '\n' ∈ text
      · have htext := lineOf_append hnl
        rw [hafter] at htext
        rwa [htext] at hnewline
      · rwa [lineOf_eq_self hnl] at hone ⊢

end LxToolset
