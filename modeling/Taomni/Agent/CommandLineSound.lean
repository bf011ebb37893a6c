import Taomni.Agent.CommandLine

/-!
# Soundness of the classifier of shell commands

Reference: `src-tauri/src/agent/cmd_classify.rs`.

`lex` takes a newline, a parenthesis, a comment, a run of operator characters and some other things for
something else than a shell does. On a command line that it reads as a shell does, the segments are the
shell's commands (`alike_run`), and what is found read-only is safe (`safe_of_readsAlike`).
-/

namespace Taomni.Agent

open List

/-! ## Command lines that are read alike -/

/-- Outside quotes the character is read as a shell does: only blanks are whitespace, there are no
parentheses and no comment, and a run of operator characters is one redirection or only separators. -/
structure UnquotedAlike (s : ShellState) (c : Char) : Prop where
  blank : isWhitespace c = true → c = ' ' ∨ c = '\t'
  parenthesis : c ≠ '(' ∧ c ≠ ')'
  comment : c = '#' → s.token ≠ none
  operator : s.operator ≠ [] → isOp c = true →
    s.continues c = true ∨ (isRedirect s.operator = false ∧ isRedirect [c] = false)
  dash : c = '-' → s.operator ≠ ['<', '<']

/-- A character of `${…}` that is read as a part of it. -/
structure BracesAlike (c : Char) : Prop where
  quote : c ≠ '\'' ∧ c ≠ '"' ∧ c ≠ '\\'
  blank : isWhitespace c = false
  operator : isOp c = false

/-- `lex` reads the character as a shell does in the state. -/
def CharAlike (s : ShellState) (c : Char) : Prop :=
  match s.contexts with
  | [] => if s.escaped then c ≠ '\n' else UnquotedAlike s c
  | .single :: _ => True
  | .double :: _ => s.escaped = true → ShellState.isDoubleEscape c = true
  | .braces :: outer =>
    if outer.contains .double then c ≠ '"' ∧ c ≠ '\\' else BracesAlike c

instance (s : ShellState) (c : Char) : Decidable (UnquotedAlike s c) :=
  decidable_of_iff
    ((isWhitespace c = true → c = ' ' ∨ c = '\t') ∧ (c ≠ '(' ∧ c ≠ ')') ∧
      (c = '#' → s.token ≠ none) ∧
      (s.operator ≠ [] → isOp c = true →
        s.continues c = true ∨ (isRedirect s.operator = false ∧ isRedirect [c] = false)) ∧
      (c = '-' → s.operator ≠ ['<', '<']))
    ⟨fun ⟨h₁, h₂, h₃, h₄, h₅⟩ => ⟨h₁, h₂, h₃, h₄, h₅⟩, fun ⟨h₁, h₂, h₃, h₄, h₅⟩ => ⟨h₁, h₂, h₃, h₄, h₅⟩⟩

instance (c : Char) : Decidable (BracesAlike c) :=
  decidable_of_iff
    ((c ≠ '\'' ∧ c ≠ '"' ∧ c ≠ '\\') ∧ isWhitespace c = false ∧ isOp c = false)
    ⟨fun ⟨h₁, h₂, h₃⟩ => ⟨h₁, h₂, h₃⟩, fun ⟨h₁, h₂, h₃⟩ => ⟨h₁, h₂, h₃⟩⟩

instance (s : ShellState) (c : Char) : Decidable (CharAlike s c) :=
  match h : s.contexts with
  | [] =>
    decidable_of_iff (if s.escaped then c ≠ '\n' else UnquotedAlike s c)
      (by rw [CharAlike.eq_def, h])
  | .single :: _ => isTrue (by rw [CharAlike.eq_def, h]; trivial)
  | .double :: _ =>
    decidable_of_iff (s.escaped = true → ShellState.isDoubleEscape c = true)
      (by rw [CharAlike.eq_def, h])
  | .braces :: outer =>
    decidable_of_iff (if outer.contains .double then c ≠ '"' ∧ c ≠ '\\' else BracesAlike c)
      (by rw [CharAlike.eq_def, h])

/-- The whole text, from a state on. -/
def CharsAlike : ShellState → Text → Prop
  | _, [] => True
  | s, c :: text => CharAlike s c ∧ CharsAlike (s.step c) text

instance decidableCharsAlike : (s : ShellState) → (text : Text) → Decidable (CharsAlike s text)
  | _, [] => isTrue trivial
  | s, c :: text =>
    have := decidableCharsAlike (s.step c) text
    inferInstanceAs (Decidable (CharAlike s c ∧ CharsAlike (s.step c) text))

/-- The classifier reads the tokens of a command as a shell does: no word is empty, every redirection has
a target, digits are its target only when it duplicates a file descriptor, digits before it are an
operand only with a word in between, and nothing is quoted in an assignment up to its `=`. -/
structure CommandAlike (cmd : List ShellToken) : Prop where
  words : ∀ w : ShellWord, .word w ∈ cmd → w ≠ []
  targets : ∀ r ∈ redirections cmd, r.2 ≠ none
  duplicates : ∀ r ∈ redirections cmd, r.1.contains '>' = true →
    r.2.any (isNumber ·.text) = true → r.1 = ['>', '&']
  numbers : ∀ pre op post, cmd = pre ++ .redirect none op :: post →
    (operands pre).getLast?.any (isNumber ·.text) = false
  assignments : ∀ w ∈ (operands cmd).takeWhile (isAssignment ·.text), isShellAssignment w = true

/-- The classifier reads the command line as a shell does. -/
structure ReadsAlike (command : Text) : Prop where
  around : ∀ c ∈ leading command ++ trailing command, c = ' ' ∨ c = '\t' ∨ c = '\n'
  chars : CharsAlike (shellRun (leading command)) (trim command)
  closed : (shellRun (leading command ++ trim command)).contexts = []
  commands : ∀ cmd ∈ (shellRead command).commands, CommandAlike cmd

/-! ## Segments and commands -/

/-- How `lex` lists a token. -/
def ShellToken.toks : ShellToken → List Tok
  | word w => if w = [] then [] else [.word w.text]
  | redirect descriptor op => (descriptor.map fun n => Tok.word n.digits).toList ++ [.op op]

/-- The finished segments and the current one. -/
def segments (toks : List Tok) : List (List Tok) × List Tok := toks.foldl splitStep ([], [])

theorem segments_concat (toks : List Tok) (t : Tok) :
    segments (toks ++ [t]) = splitStep (segments toks) t := foldl_concat ..

theorem isSeparator_eq (op : Text) : isSeparator op = !isRedirect op := by
  rw [isSeparator, isRedirect, Bool.not_or]

/-- The commands are among the segments, and the current command is the current segment. -/
structure Pieces (cmd : List ShellToken) (cmds : List (List ShellToken)) (toks : List Tok) :
    Prop where
  current : cmd.flatMap ShellToken.toks = (segments toks).2
  finished : ∀ c ∈ cmds, c ≠ [] → c.flatMap ShellToken.toks ∈ (segments toks).1

variable {op : Text}

variable {descriptor : Option IoNumber}

namespace Pieces

variable {cmd : List ShellToken} {cmds : List (List ShellToken)} {toks : List Tok}

theorem addWord (h : Pieces cmd cmds toks) (w : Text) :
    (segments (toks ++ [.word w])).2 = cmd.flatMap ShellToken.toks ++ [.word w] ∧
      (segments (toks ++ [.word w])).1 = (segments toks).1 := by
  rw [segments_concat, h.current]
  exact ⟨rfl, rfl⟩

theorem word (h : Pieces cmd cmds toks) {w : ShellWord} (hw : w ≠ []) :
    Pieces (cmd ++ [.word w]) cmds (toks ++ [.word w.text]) := by
  obtain ⟨hcurrent, hfinished⟩ := h.addWord w.text
  constructor
  · rw [hcurrent, flatMap_append, flatMap_singleton, ShellToken.toks, if_neg hw]
  · rw [hfinished]
    exact h.finished

theorem emptyWord (h : Pieces cmd cmds toks) : Pieces (cmd ++ [.word []]) cmds toks where
  current := by
    rw [flatMap_append, flatMap_singleton, ShellToken.toks, if_pos rfl, append_nil,
      h.current]
  finished := h.finished

theorem redirect (h : Pieces cmd cmds toks) (descriptor : Option IoNumber)
    (hop : isRedirect op = true) : Pieces (cmd ++ [.redirect descriptor op]) cmds
      (toks ++ (descriptor.map fun n => Tok.word n.digits).toList ++ [.op op]) := by
  have hstep (segs : List (List Tok) × List Tok) :
      splitStep segs (.op op) = (segs.1, segs.2 ++ [.op op]) := by
    rw [splitStep, isSeparator_eq, hop, Bool.not_true, if_neg Bool.false_ne_true]
  constructor
  · rw [segments_concat, hstep, flatMap_append, flatMap_singleton, ShellToken.toks,
      ← append_assoc]
    refine congrArg (· ++ [Tok.op op]) ?_
    cases descriptor with
    | none =>
      rw [Option.map_none, Option.toList_none, append_nil, append_nil]
      exact h.current
    | some n => exact (h.addWord n.digits).1.symm
  · rw [segments_concat, hstep]
    cases descriptor with
    | none =>
      rw [Option.map_none, Option.toList_none, append_nil]
      exact h.finished
    | some n =>
      change ∀ c ∈ cmds, c ≠ [] → _ ∈ (segments (toks ++ [.word n.digits])).1
      rw [(h.addWord n.digits).2]
      exact h.finished

/-- An operator that ends the segment ends the command. -/
theorem separator (h : Pieces cmd cmds toks) (hop : isRedirect op = false) :
    Pieces [] (cmds ++ [cmd]) (toks ++ [.op op]) := by
  have hsegs : segments (toks ++ [.op op]) = ((segments toks).1 ++ [(segments toks).2], []) := by
    rw [segments_concat, splitStep, isSeparator_eq, hop, Bool.not_false, if_pos rfl]
  constructor
  · rw [hsegs]
    rfl
  · rw [hsegs]
    intro c hc hne
    rcases mem_append.mp hc with hc | hc
    · exact mem_append_left _ (h.finished c hc hne)
    · cases mem_singleton.mp hc
      exact mem_append_right _ (mem_singleton.mpr h.current)

/-- A longer redirection operator. -/
theorem longerRedirect {longer : Text}
    (h : Pieces (cmd ++ [.redirect descriptor op]) cmds (toks ++ [.op op]))
    (hop : isRedirect op = true) (hlonger : isRedirect longer = true) :
    Pieces (cmd ++ [.redirect descriptor longer]) cmds (toks ++ [.op longer]) := by
  have hstep (op : Text) (hop : isRedirect op = true) : segments (toks ++ [.op op]) =
      ((segments toks).1, (segments toks).2 ++ [.op op]) := by
    rw [segments_concat, splitStep, isSeparator_eq, hop, Bool.not_true, if_neg Bool.false_ne_true]
  obtain ⟨hcurrent, hfinished⟩ := h
  rw [hstep op hop] at hcurrent hfinished
  rw [flatMap_append, flatMap_singleton, ShellToken.toks, ← append_assoc] at hcurrent
  constructor
  · rw [hstep longer hlonger, flatMap_append, flatMap_singleton, ShellToken.toks,
      ← append_assoc, append_cancel_right hcurrent]
  · rw [hstep longer hlonger]
    exact hfinished

/-- A longer separator. -/
theorem longerSeparator {longer : Text} (h : Pieces cmd cmds (toks ++ [.op op]))
    (hop : isRedirect op = false) (hlonger : isRedirect longer = false) :
    Pieces cmd cmds (toks ++ [.op longer]) := by
  have hsegs : segments (toks ++ [.op longer]) = segments (toks ++ [.op op]) := by
    rw [segments_concat, segments_concat, splitStep, splitStep, isSeparator_eq, isSeparator_eq, hop,
      hlonger, Bool.not_false, if_pos rfl, if_pos rfl]
  obtain ⟨hcurrent, hfinished⟩ := h
  rw [← hsegs] at hcurrent hfinished
  exact ⟨hcurrent, hfinished⟩

/-- An empty command is no segment. -/
theorem endEmpty (h : Pieces [] cmds toks) : Pieces [] (cmds ++ [[]]) toks where
  current := h.current
  finished c hc hne := by
    rcases mem_append.mp hc with hc | hc
    · exact h.finished c hc hne
    · exact absurd (mem_singleton.mp hc) hne

end Pieces

/-! ## The two readers in step -/

/-- What is open in the shell's state and in the state of `lex`. -/
def ModesAgree (s : ShellState) : LexMode → Prop
  | .plain => (∀ q ∈ s.contexts, q = .braces) ∧ s.escaped = false ∧ s.operator = []
  | .escape => s.contexts = [] ∧ s.escaped = true
  | .single => s.contexts = [.single] ∧ s.escaped = false ∧ s.operator = []
  | .double => (∃ outer, s.contexts = outer ++ [.double] ∧ ∀ q ∈ outer, q = .braces) ∧
      s.escaped = false ∧ s.operator = []
  | .doubleEscape => s.contexts = [.double] ∧ s.escaped = true ∧ s.operator = []
  | .operator op => s.contexts = [] ∧ s.escaped = false ∧ s.operator ≠ [] ∧
      isRedirect op = isRedirect s.operator ∧ (isRedirect op = true → op = s.operator)

namespace LexState

/-- The state once a run of operator characters has ended. -/
def ended (l : LexState) : LexState :=
  match l.mode with
  | .operator op => l.endOperator op
  | _ => l

end LexState

/-- The shell's state and the state of `lex` after the same characters, of which `prev` was the last. -/
structure Alike (prev : Option Char) (s : ShellState) (l : LexState) : Prop where
  modes : ModesAgree s l.mode
  no_comment : s.comment = false
  no_substitution : s.substitution = false
  dollar : s.escaped = false → s.dollar = true → prev = some '$'
  word : l.word = ShellWord.text (s.token.getD [])
  token : s.operator ≠ [] → s.token = none
  pieces : Pieces s.endOperator.command s.endOperator.commands l.ended.toks

theorem alike_start : Alike none .start .start where
  modes := ⟨fun _ h => absurd h not_mem_nil, rfl, rfl⟩
  no_comment := rfl
  no_substitution := rfl
  dollar _ := Bool.noConfusion
  word := rfl
  token h := absurd rfl h
  pieces := ⟨rfl, fun _ h => absurd h not_mem_nil⟩

/-- Ending the operator changes neither what is open nor the token. -/
theorem ShellState.endOperator_eq (s : ShellState) : ∃ command commands descriptor, s.endOperator =
      { s with
        operator := []
        command := command
        commands := commands
        descriptor := descriptor } := by
  rw [endOperator]
  split
  · next h =>
    refine ⟨s.command, s.commands, s.descriptor, ?_⟩
    rw [← h]
  split
  · exact ⟨_, _, _, rfl⟩
  · exact ⟨_, _, _, rfl⟩

theorem ShellState.endOperator_of_nil {s : ShellState} (h : s.operator = []) :
    s.endOperator = s := if_pos h

namespace ShellState

variable {s : ShellState} {outer : List Quoting} (c : Char)

theorem step_unquoted (hcomment : s.comment = false) (hescaped : s.escaped = false)
    (hcontexts : s.contexts = []) : s.step c = s.unquoted c := by
  cases s
  cases hcomment
  cases hescaped
  cases hcontexts
  rfl

theorem step_single (hcomment : s.comment = false) (hescaped : s.escaped = false)
    (hcontexts : s.contexts = .single :: outer) : s.step c =
      if c = '\'' then { s with contexts := outer, dollar := false } else s.push c true := by
  cases s
  cases hcomment
  cases hescaped
  cases hcontexts
  rfl

theorem step_double (hcomment : s.comment = false) (hescaped : s.escaped = false)
    (hcontexts : s.contexts = .double :: outer) : s.step c =
      if c = '"' then { s with contexts := outer, dollar := false }
      else if c = '\\' then { s with escaped := true }
      else s.expand c true := by
  cases s
  cases hcomment
  cases hescaped
  cases hcontexts
  rfl

theorem step_braces (hcomment : s.comment = false) (hescaped : s.escaped = false)
    (hcontexts : s.contexts = .braces :: outer) : s.step c =
      if c = '}' then { s.push c true with contexts := outer }
      else if c = '"' then s.openQuote .double
      else if c = '\'' ∧ !outer.contains .double then s.openQuote .single
      else if c = '\\' then { s with escaped := true }
      else s.expand c true := by
  cases s
  cases hcomment
  cases hescaped
  cases hcontexts
  rfl

theorem step_escaped (hcomment : s.comment = false) (hescaped : s.escaped = true) :
    s.step c = s.escapedChar c := by
  cases s
  cases hcomment
  cases hescaped
  rfl

end ShellState

variable {c : Char}

namespace Alike

variable {prev : Option Char} {s : ShellState} {l : LexState}

/-- After the run of operator characters. -/
theorem endOperator (h : Alike prev s l) (hmode : l.mode = .operator op) :
    Alike prev s.endOperator (l.endOperator op) := by
  obtain ⟨command, commands, descriptor, heq⟩ := s.endOperator_eq
  obtain ⟨hcontexts, hescaped, -, -, -⟩ := hmode ▸ h.modes
  have hnil : s.endOperator.operator = [] := by rw [heq]
  have hended : l.ended = l.endOperator op := by rw [LexState.ended, hmode]
  have hpieces := h.pieces
  rw [hended] at hpieces
  constructor
  · refine ⟨fun q hq => ?_, ?_, hnil⟩
    · rw [heq] at hq
      exact absurd (hcontexts ▸ hq) not_mem_nil
    · rw [heq]
      exact hescaped
  · rw [heq]
    exact h.no_comment
  · rw [heq]
    exact h.no_substitution
  · rw [heq]
    exact h.dollar
  · rw [heq]
    exact h.word
  · exact fun hne => absurd hnil hne
  · rw [ShellState.endOperator_of_nil hnil]
    exact hpieces

variable {mode : LexMode}

/-- A character is added to the word in both. -/
theorem push (h : Alike prev s l) {s' : ShellState} (quoted : Bool)
    (hmodes : ModesAgree s' mode) (hmode : ∀ op, mode ≠ .operator op)
    (hcomment : s'.comment = false) (hsubstitution : s'.substitution = false)
    (hdollar : s'.dollar = true → c = '$') (hnil : s'.operator = [])
    (htoken : s'.token = some (s.token.getD [] ++ [⟨c, quoted⟩]))
    (hcommand : s'.command = s.endOperator.command) (hcommands : s'.commands = s.endOperator.commands) :
    Alike (some c) s' (l.ended.push mode c) where
  modes := hmodes
  no_comment := hcomment
  no_substitution := hsubstitution
  dollar _ hd := congrArg some (hdollar hd)
  word := by
    have hword : l.ended.word = l.word := by
      rw [LexState.ended]
      split <;> rfl
    rw [LexState.push, hword, h.word, htoken, Option.getD_some, ShellWord.text, ShellWord.text,
      map_append]
    rfl
  token hne := absurd hnil hne
  pieces := by
    have hended : (l.ended.push mode c).ended.toks = l.ended.toks := by
      rw [LexState.ended.eq_def (l.ended.push mode c)]
      split
      · next op hop => exact absurd hop (hmode op)
      · rfl
    rw [hended, ShellState.endOperator_of_nil hnil, hcommand, hcommands]
    exact h.pieces

/-- The end of a word. -/
theorem flush (h : Alike prev s l) (hmode : l.mode = .plain) :
    (∃ command, s.endToken = { s with token := none, dollar := false, command := command }) ∧
      (∃ toks, l.flush = { l with word := [], toks := toks }) ∧
      Pieces s.endToken.command s.endToken.commands l.flush.toks := by
  have hnil : s.operator = [] := (hmode ▸ h.modes : ModesAgree s .plain).2.2
  have hended : l.ended = l := by rw [LexState.ended, hmode]
  have hpieces := h.pieces
  rw [hended, ShellState.endOperator_of_nil hnil] at hpieces
  have hword := h.word
  rw [ShellState.endToken, LexState.flush]
  cases htoken : s.token with
  | none =>
    rw [htoken] at hword
    have hempty : l.word = [] := hword
    rw [if_pos hempty]
    refine ⟨⟨s.command, ?_⟩, ⟨l.toks, by rw [← hempty]⟩, hpieces⟩
    dsimp only
  | some w =>
    rw [htoken, Option.getD_some] at hword
    dsimp only
    refine ⟨⟨_, rfl⟩, ?_, ?_⟩
    · split
      · next hempty => exact ⟨l.toks, by rw [← hempty]⟩
      · exact ⟨_, rfl⟩
    · split
      · next hempty =>
        have hw : w = [] := map_eq_nil_iff.mp (hword.symm.trans hempty)
        rw [hw]
        exact hpieces.emptyWord
      · next hne =>
        have hw : w ≠ [] := by
          rintro rfl
          exact hne hword
        rw [hword]
        exact hpieces.word hw

/-- A separator or a redirection begins. -/
private theorem beginOperator {s' : ShellState}
    {command : List ShellToken} {toks : List Tok} (h : Alike prev s l)
    (hcontexts : s.contexts = []) (hescaped : s.escaped = false) (heq : s' = { s with
      token := none
      dollar := false
      descriptor := descriptor
      operator := [c]
      command := command })
    (hpieces : Pieces s'.endOperator.command s'.endOperator.commands (toks ++ [.op [c]])) :
    Alike (some c) s' { l with mode := .operator [c], word := [], toks := toks } := by
  subst heq
  exact
    { modes := ⟨hcontexts, hescaped, cons_ne_nil _ _, rfl, fun _ => rfl⟩
      no_comment := h.no_comment
      no_substitution := h.no_substitution
      dollar := fun _ => Bool.noConfusion
      word := rfl
      token := fun _ => rfl
      pieces := hpieces }

private theorem beginSeparator (h : Alike prev s l) (hmode : l.mode = .plain)
    (hcontexts : s.contexts = []) (hc : isRedirect [c] = false) :
    Alike (some c) { s.endToken with operator := [c] } { l.flush with mode := .operator [c] } := by
  obtain ⟨-, hescaped, -⟩ := (hmode ▸ h.modes : ModesAgree s .plain)
  obtain ⟨⟨command, heq⟩, ⟨toks, hflush⟩, hpieces⟩ := h.flush hmode
  rw [heq, hflush] at hpieces ⊢
  refine beginOperator h hcontexts hescaped rfl ?_
  rw [ShellState.endOperator, if_neg (cons_ne_nil _ _), if_neg (by rw [hc]; decide)]
  exact hpieces.separator hc

private theorem beginRedirect (h : Alike prev s l) (hmode : l.mode = .plain)
    (hcontexts : s.contexts = []) (hc : isRedirect [c] = true) :
    Alike (some c) (s.beginRedirect c) { l.flush with mode := .operator [c] } := by
  obtain ⟨-, hescaped, hnil⟩ := (hmode ▸ h.modes : ModesAgree s .plain)
  rw [ShellState.beginRedirect]
  split
  · next n hn =>
    -- the digits are listed as a word
    obtain ⟨w, htoken, hdigits⟩ : ∃ w, s.token = some w ∧ w.text = n.digits := by
      rw [ShellState.ioNumber] at hn
      split at hn
      · next w htoken =>
        split at hn
        · split at hn
          · cases hn
            exact ⟨w, htoken, rfl⟩
          · cases hn
        · cases hn
      · cases hn
    have hword : l.word = n.digits := by rw [h.word, htoken, Option.getD_some, hdigits]
    have hne : l.word ≠ [] := by
      rw [hword]
      intro hempty
      have hnumber := n.isNumber
      rw [hempty] at hnumber
      exact Bool.noConfusion hnumber
    have hpieces := h.pieces
    have hended : l.ended = l := by rw [LexState.ended, hmode]
    rw [hended, ShellState.endOperator_of_nil hnil] at hpieces
    rw [LexState.flush, if_neg hne, hword]
    refine beginOperator h hcontexts hescaped rfl ?_
    rw [ShellState.endOperator, if_neg (cons_ne_nil _ _), if_pos hc]
    exact hpieces.redirect (some n) hc
  · obtain ⟨⟨command, heq⟩, ⟨toks, hflush⟩, hpieces⟩ := h.flush hmode
    rw [heq, hflush] at hpieces ⊢
    refine beginOperator h hcontexts hescaped rfl ?_
    rw [ShellState.endOperator, if_neg (cons_ne_nil _ _), if_pos hc]
    have hredirect := hpieces.redirect none hc
    rwa [Option.map_none, Option.toList_none, append_nil] at hredirect

/-- Neither a character that opens something nor a substitution. -/
private theorem substitution_expand (h : Alike prev s l) (quoted : Bool)
    (hescaped : s.escaped = false) (hbackquote : c ≠ '`')
    (hparen : ¬ (prev = some '$' ∧ c = '(')) : (s.expand c quoted).substitution = false := by
  rw [ShellState.expand]
  dsimp only
  rw [h.no_substitution, beq_eq_false_iff_ne.mpr hbackquote, Bool.false_or, Bool.false_or,
    ← Bool.not_eq_true, Bool.and_eq_true, beq_iff_eq]
  rintro ⟨hdollar, hc⟩
  exact hparen ⟨h.dollar hescaped hdollar, hc⟩

private theorem dollar_expand (s : ShellState) {quoted : Bool}
    (h : (s.expand c quoted).dollar = true) : c = '$' :=
  beq_iff_eq.mp ((Bool.and_eq_true _ _).mp h).1

/-- A character that may belong to an expansion. -/
private theorem expand (h : Alike prev s l) (quoted : Bool)
    (hescaped : s.escaped = false) (hnil : s.operator = []) (hended : l.ended = l)
    (hmodes : ModesAgree (s.expand c quoted) mode) (hmode : ∀ op, mode ≠ .operator op)
    (hbackquote : c ≠ '`') (hparen : ¬ (prev = some '$' ∧ c = '(')) :
    Alike (some c) (s.expand c quoted) (l.push mode c) := by
  have hend := ShellState.endOperator_of_nil hnil
  rw [← hended]
  exact h.push quoted hmodes hmode h.no_comment
    (h.substitution_expand quoted hescaped hbackquote hparen) (dollar_expand s) hnil rfl
    (by rw [hend]; rfl) (by rw [hend]; rfl)

/-- An ordinary character outside quotes, or in the braces of an expansion. -/
private theorem expandPlain (h : Alike prev s l) (hmode : l.mode = .plain)
    (quoted : Bool) (hbackquote : c ≠ '`') (hparen : ¬ (prev = some '$' ∧ c = '(')) :
    Alike (some c) (s.expand c quoted) (l.push .plain c) := by
  obtain ⟨hcontexts, hescaped, hnil⟩ := (hmode ▸ h.modes : ModesAgree s .plain)
  have hmodes : ModesAgree (s.expand c quoted) .plain := by
    refine ⟨fun q hq => ?_, rfl, hnil⟩
    rw [ShellState.expand] at hq
    dsimp only at hq
    split at hq
    · rcases mem_cons.mp hq with rfl | hq
      · rfl
      · exact hcontexts q hq
    · exact hcontexts q hq
  exact h.expand quoted hescaped hnil (by rw [LexState.ended, hmode]) hmodes
    (fun _ => LexMode.noConfusion) hbackquote hparen

/-- Quotes are opened in both. -/
private theorem openQuote (h : Alike prev s l) (hmode : l.mode = .plain)
    {quote : Quoting} (hmodes : ModesAgree (s.openQuote quote) mode)
    (hplain : ∀ op, mode ≠ .operator op) (c : Char) :
    Alike (some c) (s.openQuote quote) { l with mode := mode } := by
  obtain ⟨-, hescaped, hnil⟩ := (hmode ▸ h.modes : ModesAgree s .plain)
  have hpieces := h.pieces
  have hended : l.ended = l := by rw [LexState.ended, hmode]
  rw [hended, ShellState.endOperator_of_nil hnil] at hpieces
  have hended' : ({ l with mode := mode } : LexState).ended.toks = l.toks := by
    rw [LexState.ended]
    split
    · next op hop => exact absurd hop (hplain op)
    · rfl
  exact
    { modes := hmodes
      no_comment := h.no_comment
      no_substitution := h.no_substitution
      dollar := fun _ => Bool.noConfusion
      word := h.word
      token := fun hne => absurd hnil hne
      pieces := by
        rw [hended', ShellState.endOperator_of_nil (s := s.openQuote quote) hnil]
        exact hpieces }

theorem isOp_iff (c : Char) : isOp c = true ↔ (c = '<' ∨ c = '>') ∨ c = ';' ∨ c = '&' ∨ c = '|' := by
  rw [isOp, Bool.or_eq_true, Bool.or_eq_true, Bool.or_eq_true, Bool.or_eq_true, beq_iff_eq,
    beq_iff_eq, beq_iff_eq, beq_iff_eq, beq_iff_eq]
  tauto

/-- A blank. -/
private theorem endWord (h : Alike prev s l) (hmode : l.mode = .plain) (c : Char) :
    Alike (some c) s.endToken l.flush := by
  obtain ⟨hcontexts, hescaped, hnil⟩ := (hmode ▸ h.modes : ModesAgree s .plain)
  obtain ⟨⟨command, heq⟩, ⟨toks, hflush⟩, hpieces⟩ := h.flush hmode
  rw [heq, hflush] at hpieces ⊢
  constructor
  · rw [hmode]
    exact ⟨hcontexts, hescaped, hnil⟩
  · exact h.no_comment
  · exact h.no_substitution
  · exact fun _ => Bool.noConfusion
  · rfl
  · exact fun hne => absurd hnil hne
  · rw [LexState.ended]
    dsimp only
    rw [hmode, ShellState.endOperator_of_nil]
    · exact hpieces
    · exact hnil

/-- A character outside quotes that does not continue an operator. -/
theorem unquotedChar (h : Alike prev s l) (hmode : l.mode = .plain) (hcontexts : s.contexts = [])
    (halike : UnquotedAlike s c) (hbackslash : c ≠ '\\') (hbackquote : c ≠ '`')
    (hparen : ¬ (prev = some '$' ∧ c = '(')) : Alike (some c) (s.unquotedChar c) (l.plain c) := by
  obtain ⟨-, hescaped, hnil⟩ := (hmode ▸ h.modes : ModesAgree s .plain)
  rw [ShellState.unquotedChar, LexState.plain]
  by_cases hsingle : c = '\''
  · rw [if_pos hsingle, if_pos hsingle]
    have hmodes : ModesAgree (s.openQuote .single) .single :=
      ⟨congrArg (Quoting.single :: ·) hcontexts, hescaped, hnil⟩
    exact h.openQuote hmode hmodes (fun _ => LexMode.noConfusion) c
  rw [if_neg hsingle, if_neg hsingle]
  by_cases hdouble : c = '"'
  · rw [if_pos hdouble, if_pos hdouble]
    have hmodes : ModesAgree (s.openQuote .double) .double :=
      ⟨⟨[], congrArg (Quoting.double :: ·) hcontexts, fun _ hq => absurd hq not_mem_nil⟩,
        hescaped, hnil⟩
    exact h.openQuote hmode hmodes (fun _ => LexMode.noConfusion) c
  rw [if_neg hdouble, if_neg hdouble, if_neg hbackslash]
  by_cases hblank : c = ' ' ∨ c = '\t'
  · have hwhite : isWhitespace c = true := by rcases hblank with rfl | rfl <;> decide
    rw [if_pos hblank, if_pos hwhite]
    exact h.endWord hmode c
  have hwhite : isWhitespace c = false := by
    rw [← Bool.not_eq_true]
    exact fun hw => hblank (halike.blank hw)
  have hnewline : c ≠ '\n' := by
    rintro rfl
    exact absurd hwhite (by decide)
  rw [if_neg hblank, if_neg hnewline, hwhite, if_neg Bool.false_ne_true]
  by_cases hredirect : c = '<' ∨ c = '>'
  · have hop : isOp c = true := (isOp_iff c).mpr (.inl hredirect)
    rw [if_pos hredirect, if_pos hop]
    refine h.beginRedirect hmode hcontexts ?_
    rcases hredirect with rfl | rfl <;> decide
  rw [if_neg hredirect]
  by_cases hseparator : c = ';' ∨ c = '&' ∨ c = '|'
  · have hop : isOp c = true := (isOp_iff c).mpr (.inr hseparator)
    rw [if_pos hseparator, if_pos hop]
    refine h.beginSeparator hmode hcontexts ?_
    rcases hseparator with rfl | rfl | rfl <;> decide
  have hop : isOp c = false := by
    rw [← Bool.not_eq_true, isOp_iff]
    exact not_or.mpr ⟨hredirect, hseparator⟩
  rw [if_neg hseparator, if_neg (not_or.mpr halike.parenthesis),
    if_neg fun hc => halike.comment hc.1 hc.2, hop, if_neg Bool.false_ne_true]
  exact h.expandPlain hmode false hbackquote hparen

/-- A longer operator is one of few. -/
theorem continues_cases {s : ShellState} (h : s.continues c = true) :
    (isOp c = true ∨ c = '-' ∧ s.operator = ['<', '<']) ∧
      isRedirect (s.operator ++ [c]) = isRedirect s.operator := by
  rw [ShellState.continues, listed, any_eq_true] at h
  obtain ⟨op, hop, heq⟩ := h
  rw [beq_iff_eq] at heq
  have hall : ∀ op ∈ longOperators, ∃ init last, op.toList = init ++ [last] ∧
      (isOp last = true ∨ last = '-' ∧ init = ['<', '<']) ∧
        isRedirect (init ++ [last]) = isRedirect init := by
    simp only [longOperators, forall_mem_cons]
    refine ⟨⟨['&'], '&', ?_⟩, ⟨['|'], '|', ?_⟩, ⟨[';'], ';', ?_⟩, ⟨['<'], '<', ?_⟩,
      ⟨['>'], '>', ?_⟩, ⟨['<'], '&', ?_⟩, ⟨['>'], '&', ?_⟩, ⟨['<'], '>', ?_⟩, ⟨['>'], '|', ?_⟩,
      ⟨['<', '<'], '-', ?_⟩, fun _ h => absurd h not_mem_nil⟩
    all_goals decide
  obtain ⟨init, last, hlast, hspec⟩ := hall op hop
  obtain ⟨hinit, hc⟩ := append_inj' (hlast.symm.trans heq) rfl
  cases hc
  rw [← hinit]
  exact hspec

theorem isRedirect_append (op : Text) (c : Char) :
    isRedirect (op ++ [c]) = (isRedirect op || isRedirect [c]) := by
  rw [isRedirect, isRedirect, isRedirect, Bool.eq_iff_iff]
  simp only [Bool.or_eq_true, contains_iff_mem, mem_append]
  tauto

/-- A character that makes the operator longer. -/
private theorem continueOperator (h : Alike prev s l) (hmode : l.mode = .operator op)
    (hcontinues : s.continues c = true) :
    Alike (some c) { s with operator := s.operator ++ [c], dollar := false }
      { l with mode := .operator (op ++ [c]) } := by
  obtain ⟨hcontexts, hescaped, hne, hkind, hsame⟩ := (hmode ▸ h.modes : ModesAgree s (.operator op))
  obtain ⟨-, hlonger⟩ := continues_cases hcontinues
  have hne' : s.operator ++ [c] ≠ [] := append_ne_nil_of_right_ne_nil _ (cons_ne_nil _ _)
  have hlonger' : isRedirect (op ++ [c]) = isRedirect op := by
    rw [isRedirect_append, hkind, ← isRedirect_append, hlonger]
  have hpieces := h.pieces
  have hended : l.ended.toks = l.toks ++ [.op op] := by
    rw [LexState.ended, hmode]
    rfl
  rw [hended] at hpieces
  constructor
  · refine ⟨hcontexts, hescaped, hne', ?_, fun hredirect => ?_⟩
    · rw [hlonger', hlonger, hkind]
    · rw [hsame (hlonger' ▸ hredirect)]
  · exact h.no_comment
  · exact h.no_substitution
  · exact fun _ => Bool.noConfusion
  · exact h.word
  · exact fun _ => h.token hne
  · change Pieces _ _ (l.toks ++ [.op (op ++ [c])])
    rw [ShellState.endOperator, if_neg hne]  at hpieces
    rw [ShellState.endOperator, if_neg hne', hlonger]
    cases hredirect : isRedirect s.operator with
    | true =>
      rw [hredirect, if_pos rfl] at hpieces
      rw [if_pos rfl]
      rw [hsame (hkind.trans hredirect)] at hpieces ⊢
      exact hpieces.longerRedirect hredirect (hlonger.trans hredirect)
    | false =>
      rw [hredirect, if_neg Bool.false_ne_true] at hpieces
      rw [if_neg Bool.false_ne_true]
      exact hpieces.longerSeparator (hkind.trans hredirect)
        (hlonger'.trans (hkind.trans hredirect))

/-- A backslash outside quotes. -/
private theorem backslash (h : Alike prev s l) (hcontexts : s.contexts = []) (c : Char) :
    Alike (some c) { s with escaped := true } { l.ended with mode := .escape } := by
  have hend : ({ s with escaped := true } : ShellState).endOperator =
      { s.endOperator with escaped := true } := by
    rw [ShellState.endOperator, ShellState.endOperator]
    dsimp only
    split
    · rfl
    split <;> rfl
  have hword : l.ended.word = l.word := by
    rw [LexState.ended]
    split <;> rfl
  constructor
  · exact ⟨hcontexts, rfl⟩
  · exact h.no_comment
  · exact h.no_substitution
  · exact Bool.noConfusion
  · exact hword.trans h.word
  · exact h.token
  · rw [hend]
    exact h.pieces

/-- What the shell reads after an operator has ended, or where there was none. -/
private theorem unquoted_eq (hbackslash : c ≠ '\\')
    (hcontinues : ¬ (s.operator ≠ [] ∧ s.continues c = true)) (hparen : c ≠ '(') :
    s.unquoted c = s.endOperator.unquotedChar c := by
  rw [ShellState.unquoted, if_neg hbackslash, if_neg hcontinues, beq_eq_false_iff_ne.mpr hparen]
  dsimp only
  rw [Bool.false_and, Bool.or_false]

/-- A character outside quotes, where no operator is read. -/
private theorem unquotedPlain (h : Alike prev s l) (hmode : l.mode = .plain)
    (hcontexts : s.contexts = []) (halike : UnquotedAlike s c) (hbackquote : c ≠ '`')
    (hparen : ¬ (prev = some '$' ∧ c = '(')) : Alike (some c) (s.unquoted c) (l.plain c) := by
  obtain ⟨-, hescaped, hnil⟩ := (hmode ▸ h.modes : ModesAgree s .plain)
  have hended : l.ended = l := by rw [LexState.ended, hmode]
  by_cases hbackslash : c = '\\'
  · have hescape := h.backslash hcontexts c
    rw [hended] at hescape
    rw [ShellState.unquoted, if_pos hbackslash, LexState.plain, if_neg, if_neg, if_pos hbackslash]
    · exact hescape
    · exact fun hc => absurd (hbackslash.symm.trans hc) (by decide)
    · exact fun hc => absurd (hbackslash.symm.trans hc) (by decide)
  · rw [unquoted_eq hbackslash (fun hc => hc.1 hnil) halike.parenthesis.1,
      ShellState.endOperator_of_nil hnil]
    exact h.unquotedChar hmode hcontexts halike hbackslash hbackquote hparen

/-- A separator after a separator: an empty command stands between them. -/
private theorem nextSeparator (h : Alike prev s l) (hmode : l.mode = .operator op)
    (hop : isOp c = true) (hcontrol : isRedirect s.operator = false) (hc : isRedirect [c] = false) :
    Alike (some c) (s.endOperator.unquotedChar c) { l with mode := .operator (op ++ [c]) } := by
  obtain ⟨hcontexts, hescaped, hne, hkind, hsame⟩ := (hmode ▸ h.modes : ModesAgree s (.operator op))
  have htoken := h.token hne
  have hseparator : c = ';' ∨ c = '&' ∨ c = '|' := by
    refine ((isOp_iff c).mp hop).resolve_left ?_
    rintro (rfl | rfl)
    · exact absurd hc (by decide)
    · exact absurd hc (by decide)
  have hend : s.endOperator =
      { s with operator := [], command := [], commands := s.commands ++ [s.command] } := by
    rw [ShellState.endOperator, if_neg hne, hcontrol, if_neg Bool.false_ne_true]
    rfl
  have hshell : s.endOperator.unquotedChar c =
      { s with
        dollar := false
        operator := [c]
        command := []
        commands := s.commands ++ [s.command] } := by
    rw [hend]
    cases s
    cases htoken
    rcases hseparator with rfl | rfl | rfl <;> rfl
  have hpieces := h.pieces
  have hended : l.ended.toks = l.toks ++ [.op op] := by
    rw [LexState.ended, hmode]
    rfl
  rw [hended, hend] at hpieces
  have hlonger : isRedirect (op ++ [c]) = false := by
    rw [isRedirect_append, hkind, hcontrol, hc]
    rfl
  rw [hshell]
  constructor
  · refine ⟨hcontexts, hescaped, cons_ne_nil _ _, hlonger.trans hc.symm, fun hredirect => ?_⟩
    exact absurd (hlonger.symm.trans hredirect) Bool.false_ne_true
  · exact h.no_comment
  · exact h.no_substitution
  · exact fun _ => Bool.noConfusion
  · exact h.word
  · exact fun _ => htoken
  · change Pieces _ _ (l.toks ++ [.op (op ++ [c])])
    rw [ShellState.endOperator, if_neg (cons_ne_nil _ _), hc, if_neg Bool.false_ne_true]
    exact (hpieces.longerSeparator (hkind.trans hcontrol) hlonger).endEmpty

/-- A character in a run of operator characters, or after it. -/
private theorem unquotedOperator (h : Alike prev s l) (hmode : l.mode = .operator op)
    (halike : UnquotedAlike s c) (hbackquote : c ≠ '`')
    (hparen : ¬ (prev = some '$' ∧ c = '(')) : Alike (some c) (s.unquoted c) (l.step c) := by
  obtain ⟨hcontexts, hescaped, hne, hkind, hsame⟩ := (hmode ▸ h.modes : ModesAgree s (.operator op))
  have hended := h.endOperator hmode
  obtain ⟨command, commands, descriptor, heq⟩ := s.endOperator_eq
  have hcontexts' : s.endOperator.contexts = [] := by
    rw [heq]
    exact hcontexts
  rw [LexState.step, hmode]
  dsimp only
  by_cases hop : isOp c = true
  · rw [if_pos hop]
    have hbackslash : c ≠ '\\' := by
      rintro rfl
      exact absurd hop (by decide)
    by_cases hcontinues : s.continues c = true
    · rw [ShellState.unquoted, if_neg hbackslash, if_pos ⟨hne, hcontinues⟩]
      exact h.continueOperator hmode hcontinues
    · -- another separator, and an empty command before it
      obtain ⟨hcontrol, hc⟩ := (halike.operator hne hop).resolve_left hcontinues
      rw [unquoted_eq hbackslash (fun h => hcontinues h.2) halike.parenthesis.1]
      exact h.nextSeparator hmode hop hcontrol hc
  · rw [if_neg hop]
    have hcontinues : ¬ (s.operator ≠ [] ∧ s.continues c = true) := by
      rintro ⟨-, hcontinues⟩
      rcases (continues_cases hcontinues).1 with hc | ⟨hc, hheredoc⟩
      · exact hop hc
      · exact halike.dash hc hheredoc
    by_cases hbackslash : c = '\\'
    · have hescape := h.backslash hcontexts c
      rw [LexState.ended, hmode] at hescape
      rw [ShellState.unquoted, if_pos hbackslash, LexState.plain, if_neg, if_neg, if_pos hbackslash]
      · exact hescape
      · exact fun hc => absurd (hbackslash.symm.trans hc) (by decide)
      · exact fun hc => absurd (hbackslash.symm.trans hc) (by decide)
    · have halike' : UnquotedAlike s.endOperator c :=
        { halike with
          comment := by
            rw [heq]
            exact halike.comment
          operator := fun hne => absurd (by rw [heq]) hne
          dash := fun _ => by
            rw [heq]
            exact (cons_ne_nil _ _).symm }
      rw [unquoted_eq hbackslash hcontinues halike.parenthesis.1]
      exact hended.unquotedChar rfl hcontexts' halike' hbackslash hbackquote hparen

/-- A character in the braces of an expansion, outside quotes. -/
private theorem insideBraces (h : Alike prev s l) (hmode : l.mode = .plain) {outer : List Quoting}
    (hcontexts : s.contexts = .braces :: outer) (halike : BracesAlike c)
    (hbackquote : c ≠ '`') (hparen : ¬ (prev = some '$' ∧ c = '(')) :
    Alike (some c) (s.step c) (l.step c) := by
  obtain ⟨hbraces, hescaped, hnil⟩ := (hmode ▸ h.modes : ModesAgree s .plain)
  obtain ⟨⟨hsingle, hdouble, hbackslash⟩, hblank, hop⟩ := halike
  have hplain : l.step c = l.push .plain c := by
    rw [LexState.step, hmode]
    dsimp only
    rw [LexState.plain, if_neg hsingle, if_neg hdouble, if_neg hbackslash, hblank,
      if_neg Bool.false_ne_true, hop, if_neg Bool.false_ne_true]
  have hended : l.ended = l := by rw [LexState.ended, hmode]
  have hend := ShellState.endOperator_of_nil hnil
  rw [hplain, ShellState.step_braces c h.no_comment hescaped hcontexts]
  by_cases hclose : c = '}'
  · have hmodes : ModesAgree { s.push c true with contexts := outer } .plain :=
      ⟨fun q hq => hbraces q (hcontexts ▸ mem_cons_of_mem _ hq), rfl, hnil⟩
    rw [if_pos hclose, ← hended]
    exact h.push true hmodes (fun _ => LexMode.noConfusion) h.no_comment h.no_substitution
      Bool.noConfusion hnil rfl (by rw [hend]; rfl) (by rw [hend]; rfl)
  · rw [if_neg hclose, if_neg hdouble, if_neg fun hc => hsingle hc.1, if_neg hbackslash]
    exact h.expandPlain hmode true hbackquote hparen

/-- A character in single quotes. -/
private theorem insideSingle (h : Alike prev s l) (hmode : l.mode = .single) (c : Char) :
    Alike (some c) (s.step c) (l.step c) := by
  obtain ⟨hcontexts, hescaped, hnil⟩ := (hmode ▸ h.modes : ModesAgree s .single)
  have hended : l.ended = l := by rw [LexState.ended, hmode]
  have hend := ShellState.endOperator_of_nil hnil
  rw [LexState.step, hmode, ShellState.step_single c h.no_comment hescaped hcontexts]
  dsimp only
  by_cases hclose : c = '\''
  · rw [if_pos hclose, if_pos hclose]
    have hpieces := h.pieces
    rw [hended, hend] at hpieces
    constructor
    · exact ⟨fun _ hq => absurd hq not_mem_nil, hescaped, hnil⟩
    · exact h.no_comment
    · exact h.no_substitution
    · exact fun _ => Bool.noConfusion
    · exact h.word
    · exact h.token
    · rw [ShellState.endOperator_of_nil]
      · exact hpieces
      · exact hnil
  · rw [if_neg hclose, if_neg hclose, ← hended]
    have hmodes : ModesAgree (s.push c true) .single := ⟨hcontexts, rfl, hnil⟩
    exact h.push true hmodes (fun _ => LexMode.noConfusion) h.no_comment h.no_substitution
      Bool.noConfusion hnil rfl (by rw [hend]; rfl) (by rw [hend]; rfl)

/-- A character in double quotes. -/
private theorem insideDouble (h : Alike prev s l) (hmode : l.mode = .double)
    (halike : CharAlike s c) (hbackquote : c ≠ '`') (hparen : ¬ (prev = some '$' ∧ c = '(')) :
    Alike (some c) (s.step c) (l.step c) := by
  obtain ⟨⟨outer, hcontexts, hbraces⟩, hescaped, hnil⟩ := (hmode ▸ h.modes : ModesAgree s .double)
  have hended : l.ended = l := by rw [LexState.ended, hmode]
  have hend := ShellState.endOperator_of_nil hnil
  have hpieces := h.pieces
  rw [hended, hend] at hpieces
  have hexpand : Alike (some c) (s.expand c true) (l.push .double c) := by
    have hmodes : ModesAgree (s.expand c true) .double := by
      refine ⟨?_, rfl, hnil⟩
      rw [ShellState.expand]
      dsimp only
      split
      · exact ⟨.braces :: outer, congrArg (Quoting.braces :: ·) hcontexts,
          forall_mem_cons.mpr ⟨rfl, hbraces⟩⟩
      · exact ⟨outer, hcontexts, hbraces⟩
    exact h.expand true hescaped hnil hended hmodes (fun _ => LexMode.noConfusion) hbackquote hparen
  rw [CharAlike.eq_def] at halike
  rw [LexState.step, hmode]
  dsimp only
  cases outer with
  | nil =>
    rw [nil_append] at hcontexts
    rw [ShellState.step_double c h.no_comment hescaped hcontexts]
    by_cases hclose : c = '"'
    · rw [if_pos hclose, if_pos hclose]
      constructor
      · exact ⟨fun _ hq => absurd hq not_mem_nil, hescaped, hnil⟩
      · exact h.no_comment
      · exact h.no_substitution
      · exact fun _ => Bool.noConfusion
      · exact h.word
      · exact h.token
      · rw [ShellState.endOperator_of_nil]
        · exact hpieces
        · exact hnil
    rw [if_neg hclose, if_neg hclose]
    by_cases hbackslash : c = '\\'
    · rw [if_pos hbackslash, if_pos hbackslash]
      constructor
      · exact ⟨hcontexts, rfl, hnil⟩
      · exact h.no_comment
      · exact h.no_substitution
      · exact Bool.noConfusion
      · exact h.word
      · exact h.token
      · rw [ShellState.endOperator_of_nil]
        · exact hpieces
        · exact hnil
    · rw [if_neg hbackslash, if_neg hbackslash]
      exact hexpand
  | cons q outer =>
    obtain ⟨rfl, hrest⟩ := forall_mem_cons.mp hbraces
    have hinside : (outer ++ [Quoting.double]).contains .double = true :=
      contains_iff_mem.mpr (mem_append_right _ (mem_singleton.mpr rfl))
    rw [cons_append] at hcontexts
    rw [ShellState.step_braces c h.no_comment hescaped hcontexts]
    rw [hcontexts] at halike
    dsimp only at halike
    rw [hinside, if_pos rfl] at halike
    obtain ⟨hdouble, hbackslash⟩ := halike
    have hlex : (if c = '"' then { l with mode := .plain }
        else if c = '\\' then { l with mode := .doubleEscape }
        else l.push .double c) = l.push .double c := by
      rw [if_neg hdouble, if_neg hbackslash]
    rw [hlex]
    by_cases hclose : c = '}'
    · have hmodes : ModesAgree { s.push c true with contexts := outer ++ [.double] } .double :=
        ⟨⟨outer, rfl, hrest⟩, rfl, hnil⟩
      rw [if_pos hclose, ← hended]
      exact h.push true hmodes (fun _ => LexMode.noConfusion) h.no_comment h.no_substitution
        Bool.noConfusion hnil rfl (by rw [hend]; rfl) (by rw [hend]; rfl)
    · rw [if_neg hclose, if_neg hdouble, if_neg, if_neg hbackslash]
      · exact hexpand
      · rw [hinside]
        exact fun hc => Bool.false_ne_true hc.2

/-- The character after a backslash. -/
private theorem afterBackslash (h : Alike prev s l) (hescaped : s.escaped = true) (hnewline : c ≠ '\n')
    (hquoted : ¬ (s.contexts.contains .double = true ∧ (!ShellState.isDoubleEscape c) = true))
    (hended : l.ended = l) (hmodes : ModesAgree (s.endOperator.push c true) mode)
    (hmode : ∀ op, mode ≠ .operator op) : Alike (some c) (s.step c) (l.push mode c) := by
  obtain ⟨command, commands, descriptor, heq⟩ := s.endOperator_eq
  rw [ShellState.step_escaped c h.no_comment hescaped, ShellState.escapedChar, if_neg hnewline,
    if_neg hquoted, ← hended]
  refine h.push true hmodes hmode ?_ ?_ Bool.noConfusion ?_ ?_ rfl rfl
  · rw [heq]
    exact h.no_comment
  · rw [heq]
    exact h.no_substitution
  · rw [heq]
    rfl
  · rw [heq]
    rfl

/-- One character. -/
theorem step (h : Alike prev s l) (halike : CharAlike s c) (hbackquote : c ≠ '`')
    (hparen : ¬ (prev = some '$' ∧ c = '(')) : Alike (some c) (s.step c) (l.step c) := by
  obtain ⟨command, commands, descriptor, heq⟩ := s.endOperator_eq
  have hmodes := h.modes
  cases hmode : l.mode with
  | plain =>
    obtain ⟨hbraces, hescaped, -⟩ := (hmode ▸ hmodes : ModesAgree s .plain)
    have hplain : l.step c = l.plain c := by rw [LexState.step, hmode]
    rw [CharAlike.eq_def] at halike
    cases hcontexts : s.contexts with
    | nil =>
      rw [hcontexts] at halike
      dsimp only at halike
      rw [hescaped, if_neg Bool.false_ne_true] at halike
      rw [ShellState.step_unquoted c h.no_comment hescaped hcontexts, hplain]
      exact h.unquotedPlain hmode hcontexts halike hbackquote hparen
    | cons q outer =>
      obtain rfl : q = .braces := hbraces q (hcontexts ▸ mem_cons_self)
      have houter : outer.contains .double = false := by
        rw [← Bool.not_eq_true, contains_iff_mem]
        intro hmem
        cases hbraces _ (hcontexts ▸ mem_cons_of_mem _ hmem)
      rw [hcontexts] at halike
      dsimp only at halike
      rw [houter, if_neg Bool.false_ne_true] at halike
      exact h.insideBraces hmode hcontexts halike hbackquote hparen
  | escape =>
    obtain ⟨hcontexts, hescaped⟩ := (hmode ▸ hmodes : ModesAgree s .escape)
    rw [CharAlike.eq_def, hcontexts] at halike
    dsimp only at halike
    rw [hescaped, if_pos rfl] at halike
    have hlex : l.step c = l.push .plain c := by rw [LexState.step, hmode]
    rw [hlex]
    refine h.afterBackslash hescaped halike ?_ (by rw [LexState.ended, hmode]) ?_
      (fun _ => LexMode.noConfusion)
    · rw [hcontexts]
      exact fun hc => Bool.false_ne_true hc.1
    · rw [heq]
      exact ⟨fun q hq => absurd (hcontexts ▸ hq) not_mem_nil, rfl, rfl⟩
  | single => exact h.insideSingle hmode c
  | double => exact h.insideDouble hmode halike hbackquote hparen
  | doubleEscape =>
    obtain ⟨hcontexts, hescaped, hnil⟩ := (hmode ▸ hmodes : ModesAgree s .doubleEscape)
    rw [CharAlike.eq_def, hcontexts] at halike
    have hquoted := halike hescaped
    have hlex : l.step c = l.push .double c := by rw [LexState.step, hmode]
    rw [hlex]
    refine h.afterBackslash hescaped ?_ ?_ (by rw [LexState.ended, hmode]) ?_
      (fun _ => LexMode.noConfusion)
    · rintro rfl
      exact absurd hquoted (by decide)
    · rw [hquoted]
      exact fun hc => Bool.false_ne_true hc.2
    · rw [ShellState.endOperator_of_nil hnil]
      exact ⟨⟨[], hcontexts, fun _ hq => absurd hq not_mem_nil⟩, rfl, hnil⟩
  | operator op =>
    obtain ⟨hcontexts, hescaped, -⟩ := (hmode ▸ hmodes : ModesAgree s (.operator op))
    rw [CharAlike.eq_def, hcontexts] at halike
    dsimp only at halike
    rw [hescaped, if_neg Bool.false_ne_true] at halike
    rw [ShellState.step_unquoted c h.no_comment hescaped hcontexts]
    exact h.unquotedOperator hmode halike hbackquote hparen

end Alike

/-! ## Whole command lines -/

variable {text : Text}

theorem Alike.foldl {prev : Option Char} {s : ShellState} {l : LexState} (h : Alike prev s l)
    (hchars : CharsAlike s text) (hbackquote : '`' ∉ text)
    (hparen : ¬ ['$', '('] <:+: prev.toList ++ text) :
    ∃ last, Alike last (text.foldl ShellState.step s) (text.foldl LexState.step l) := by
  induction text generalizing prev s l with
  | nil => exact ⟨prev, h⟩
  | cons c text ih =>
    have hstep : Alike (some c) (s.step c) (l.step c) := by
      refine h.step hchars.1 (fun hc => hbackquote (hc ▸ mem_cons_self)) ?_
      rintro ⟨rfl, rfl⟩
      exact hparen ⟨[], text, rfl⟩
    refine ih hstep hchars.2 (fun hmem => hbackquote (mem_cons_of_mem _ hmem))
      fun hquery => hparen (hquery.trans ?_)
    exact (suffix_append prev.toList (c :: text)).isInfix

/-- A blank or a newline. -/
def IsGap (c : Char) : Prop := c = ' ' ∨ c = '\t' ∨ c = '\n'

/-- Before the first word there are only empty commands. -/
theorem shellRun_gap (h : ∀ c ∈ text, IsGap c) :
    ∃ n, shellRun text = { ShellState.start with commands := List.replicate n [] } := by
  induction text using List.reverseRecOn with
  | nil => exact ⟨0, rfl⟩
  | append_singleton text c ih =>
    obtain ⟨n, hn⟩ := ih fun d hd => h d (mem_append_left _ hd)
    rw [shellRun, foldl_concat]
    change ∃ n, (shellRun text).step c = _
    rw [hn]
    rcases h c (mem_append_right _ (mem_singleton.mpr rfl)) with rfl | rfl | rfl
    · exact ⟨n, rfl⟩
    · exact ⟨n, rfl⟩
    · refine ⟨n + 1, ?_⟩
      rw [replicate_succ']
      rfl

theorem alike_gap (n : ℕ) :
    Alike none { ShellState.start with commands := List.replicate n [] } .start :=
  { alike_start with
    pieces := ⟨rfl, fun _ hc hne => absurd (eq_of_mem_replicate hc) hne⟩ }

/-- Outside quotes and comments. -/
structure ShellState.Settled (s : ShellState) : Prop where
  contexts : s.contexts = []
  escaped : s.escaped = false
  comment : s.comment = false

theorem ShellState.endToken_eq (s : ShellState) : ∃ command, s.endToken =
    { s with token := none, dollar := false, command := command } := by
  cases htoken : s.token with
  | none =>
    refine ⟨s.command, ?_⟩
    cases s
    cases htoken
    rfl
  | some w =>
    refine ⟨s.command ++ [.word w], ?_⟩
    cases s
    cases htoken
    rfl

/-- After the last word there are no more commands. -/
theorem finish_gap {s : ShellState} (h : s.Settled) (hc : IsGap c) :
    (s.step c).Settled ∧ (s.step c).finish.substitution = s.finish.substitution ∧
      ∀ cmd ∈ (s.step c).finish.commands, cmd ≠ [] → cmd ∈ s.finish.commands := by
  have hordinary : isOp c = false ∧ c ≠ '-' ∧ c ≠ '\\' ∧ c ≠ '(' := by
    rcases hc with rfl | rfl | rfl <;> decide
  obtain ⟨hop, hdash, hbackslash, hparen⟩ := hordinary
  have hcontinues : ¬ (s.operator ≠ [] ∧ s.continues c = true) := by
    rintro ⟨-, hcontinues⟩
    rcases (Alike.continues_cases hcontinues).1 with h | ⟨h, -⟩
    · exact Bool.false_ne_true (hop.symm.trans h)
    · exact hdash h
  rw [ShellState.step_unquoted c h.comment h.escaped h.contexts,
    Alike.unquoted_eq hbackslash hcontinues hparen]
  obtain ⟨command, commands, descriptor, hend⟩ := s.endOperator_eq
  obtain ⟨command', htoken⟩ := s.endOperator.endToken_eq
  have hfinish : s.finish =
      { s with
        operator := []
        token := none
        dollar := false
        descriptor := descriptor
        command := []
        commands := commands ++ [command'] } := by
    rw [ShellState.finish, htoken, hend]
    rfl
  have hblank (hc : c = ' ' ∨ c = '\t') : s.endOperator.unquotedChar c =
      { s.endOperator with token := none, dollar := false, command := command' } := by
    rw [← htoken]
    rcases hc with rfl | rfl <;> rfl
  have hnewline (hc : c = '\n') : s.endOperator.unquotedChar c =
      { s.endOperator with
        token := none
        dollar := false
        command := []
        commands := s.endOperator.commands ++ [command'] } := by
    rw [hc]
    change s.endOperator.endToken.endCommand = _
    rw [htoken]
    rfl
  rw [hfinish]
  rcases or_assoc.mpr hc with hc | hc
  · rw [hblank hc, hend]
    exact ⟨⟨h.contexts, h.escaped, h.comment⟩, rfl, fun _ hcmd _ => hcmd⟩
  · rw [hnewline hc, hend]
    refine ⟨⟨h.contexts, h.escaped, h.comment⟩, rfl, fun cmd hcmd hne => ?_⟩
    rcases mem_append.mp hcmd with hcmd | hcmd
    · exact hcmd
    · exact absurd (mem_singleton.mp hcmd) hne

/-- The same for all that follows the last word. -/
theorem finish_gaps {s : ShellState} (h : s.Settled) (htext : ∀ c ∈ text, IsGap c) :
    (text.foldl ShellState.step s).finish.substitution = s.finish.substitution ∧
      ∀ cmd ∈ (text.foldl ShellState.step s).finish.commands, cmd ≠ [] → cmd ∈ s.finish.commands := by
  induction text generalizing s with
  | nil => exact ⟨rfl, fun _ hcmd _ => hcmd⟩
  | cons c text ih =>
    obtain ⟨hc, htext⟩ := forall_mem_cons.mp htext
    obtain ⟨hsettled, hsubstitution, hcommands⟩ := finish_gap h hc
    obtain ⟨hsubstitution', hcommands'⟩ := ih hsettled htext
    exact ⟨hsubstitution'.trans hsubstitution,
      fun cmd hcmd hne => hcommands cmd (hcommands' cmd hcmd hne) hne⟩

/-- When the text is over outside quotes and operators. -/
private theorem Alike.finishPlain {prev : Option Char} {s : ShellState} {l : LexState}
    (h : Alike prev s l) (hmode : l.mode = .plain) :
    s.finish.substitution = false ∧ ∀ cmd ∈ s.finish.commands, cmd ≠ [] →
      cmd.flatMap ShellToken.toks ∈ splitSegments l.flush.toks := by
  obtain ⟨-, -, hnil⟩ := (hmode ▸ h.modes : ModesAgree s .plain)
  obtain ⟨⟨command, heq⟩, -, hcurrent, hfinished⟩ := h.flush hmode
  have hfinish : s.finish = s.endToken.endCommand := by
    rw [ShellState.finish, ShellState.endOperator_of_nil hnil]
  rw [hfinish]
  refine ⟨?_, fun cmd hcmd hne => ?_⟩
  · rw [heq]
    exact h.no_substitution
  · rcases mem_append.mp hcmd with hcmd | hcmd
    · exact mem_append_left _ (hfinished cmd hcmd hne)
    · cases mem_singleton.mp hcmd
      exact mem_append_right _ (mem_singleton.mpr hcurrent)

/-- When the text is over, the commands are among the segments. -/
theorem Alike.finish {prev : Option Char} {s : ShellState} {l : LexState} (h : Alike prev s l)
    {toks : List Tok} (hlex : l.finish = some toks) : s.escaped = false ∧ s.finish.substitution = false ∧
      ∀ cmd ∈ s.finish.commands, cmd ≠ [] → cmd.flatMap ShellToken.toks ∈ splitSegments toks := by
  rw [LexState.finish] at hlex
  split at hlex
  · next hmode =>
    cases hlex
    exact ⟨(hmode ▸ h.modes : ModesAgree s .plain).2.1, h.finishPlain hmode⟩
  · next op hmode =>
    cases hlex
    have hfinish : s.endOperator.finish = s.finish := by
      obtain ⟨command, commands, descriptor, heq⟩ := s.endOperator_eq
      rw [ShellState.finish, ShellState.finish, ShellState.endOperator_of_nil (s := s.endOperator)]
      rw [heq]
    have hended := (h.endOperator hmode).finishPlain rfl
    rw [hfinish] at hended
    exact ⟨(hmode ▸ h.modes : ModesAgree s (.operator op)).2.1, hended⟩
  · cases hlex

/-! ## Commands that are accepted -/

theorem isAssignment_of_isShellAssignment {w : ShellWord} (h : isShellAssignment w = true) :
    isAssignment w.text = true := ((Bool.and_eq_true _ _).mp h).1

/-- A redirection, with the number before it, takes its target and leaves the words. -/
private theorem scanSegment_redirect (descriptor : Option IoNumber) {target : Text}
    {seg : List Tok} {words targets : List Text}
    (hnumber : descriptor = none → words.getLast?.any isNumber = false) :
    scanSegment ((descriptor.map fun n => Tok.word n.digits).toList ++
        .op op :: .word target :: seg) words targets =
      if op.contains '>' && !outputTargetOk (some target) then none
      else scanSegment seg words (targets ++ [target]) := by
  cases descriptor with
  | none =>
    have hpop : popNumber words = words := by
      rw [popNumber, hnumber rfl, if_neg Bool.false_ne_true]
    change scanSegment (.op op :: .word target :: seg) words targets = _
    rw [scanSegment, hpop]
    rfl
  | some n =>
    have hpop : popNumber (words ++ [n.digits]) = words := by
      rw [popNumber, getLast?_concat, Option.any_some, n.isNumber, if_pos rfl,
        dropLast_concat]
    change scanSegment (.word n.digits :: .op op :: .word target :: seg) words targets = _
    rw [scanSegment, scanSegment, hpop]
    rfl

/-- What the scan of a segment finds in a command that is read alike. -/
theorem scanSegment_toks {cmd : List ShellToken} {words targets words' targets' : List Text}
    (hwords : ∀ w, .word w ∈ cmd → w ≠ []) (htargets : ∀ r ∈ redirections cmd, r.2 ≠ none)
    (hnumbers : ∀ pre op post, cmd = pre ++ .redirect none op :: post →
      (words ++ (operands pre).map ShellWord.text).getLast?.any isNumber = false)
    (h : scanSegment (cmd.flatMap ShellToken.toks) words targets = some (words', targets')) :
    words' = words ++ (operands cmd).map ShellWord.text ∧
      targets' = targets ++ (redirections cmd).filterMap (·.2.map ShellWord.text) ∧
      ∀ r ∈ redirections cmd, r.1.contains '>' = true →
        outputTargetOk (r.2.map ShellWord.text) = true := by
  induction cmd using operands.induct generalizing words targets with
  | case1 =>
    cases h
    exact ⟨(append_nil _).symm, (append_nil _).symm, fun _ h => absurd h not_mem_nil⟩
  | case2 w cmd ih =>
    have hw := hwords w mem_cons_self
    rw [flatMap_cons, ShellToken.toks, if_neg hw, singleton_append, scanSegment] at h
    have hrest : ∀ pre op post, cmd = pre ++ .redirect none op :: post →
        (words ++ [w.text] ++ (operands pre).map ShellWord.text).getLast?.any isNumber = false := by
      intro pre op post heq
      have hnumber := hnumbers (.word w :: pre) op post (congrArg (_ :: ·) heq)
      rw [operands, map_cons] at hnumber
      rwa [append_assoc]
    obtain ⟨hwords', htargets', hok⟩ := ih (fun v hv => hwords v (mem_cons_of_mem _ hv))
      htargets hrest h
    refine ⟨?_, htargets', hok⟩
    rw [hwords', operands, map_cons, append_assoc]
    rfl
  | case3 descriptor op target cmd ih =>
    have htarget := hwords target (mem_cons_of_mem _ mem_cons_self)
    have hnumber : descriptor = none → words.getLast?.any isNumber = false := by
      rintro rfl
      have hnone := hnumbers [] op _ rfl
      rwa [operands, map_nil, append_nil] at hnone
    rw [flatMap_cons, flatMap_cons, ShellToken.toks, ShellToken.toks, if_neg htarget,
      append_assoc, singleton_append, singleton_append,
      scanSegment_redirect descriptor hnumber] at h
    split at h
    · cases h
    next hallowed =>
    have hrest : ∀ pre op post, cmd = pre ++ .redirect none op :: post →
        (words ++ (operands pre).map ShellWord.text).getLast?.any isNumber = false :=
      fun pre op' post heq => hnumbers (.redirect descriptor op :: .word target :: pre) op' post
        (congrArg (_ :: _ :: ·) heq)
    obtain ⟨hwords', htargets', hok⟩ := ih
      (fun v hv => hwords v (mem_cons_of_mem _ (mem_cons_of_mem _ hv)))
      (fun r hr => htargets r (mem_cons_of_mem _ hr)) hrest h
    refine ⟨hwords', ?_, ?_⟩
    · rw [htargets', append_assoc]
      rfl
    · rw [redirections, forall_mem_cons]
      refine ⟨fun hwrites => ?_, hok⟩
      rw [hwrites, Bool.true_and, Bool.not_eq_true, Bool.not_eq_false'] at hallowed
      exact hallowed
  | case4 descriptor op cmd hne ih =>
    refine absurd rfl (htargets (op, none) ?_)
    rw [redirections]
    · exact mem_cons_self
    · exact hne

/-- The leading assignments are the same. -/
private theorem dropWhile_isAssignment {ws : List ShellWord}
    (h : ∀ w ∈ ws.takeWhile (isAssignment ·.text), isShellAssignment w = true) :
    (ws.map ShellWord.text).dropWhile isAssignment =
      (ws.dropWhile isShellAssignment).map ShellWord.text := by
  induction ws with
  | nil => rfl
  | cons w ws ih =>
    rw [map_cons, dropWhile_cons, dropWhile_cons]
    rw [takeWhile_cons] at h
    cases hassignment : isAssignment w.text with
    | true =>
      rw [hassignment, if_pos rfl, forall_mem_cons] at h
      rw [if_pos rfl, h.1, if_pos rfl]
      exact ih h.2
    | false =>
      have hshell : isShellAssignment w = false := by
        rw [← Bool.not_eq_true]
        intro hshell
        rw [isAssignment_of_isShellAssignment hshell] at hassignment
        cases hassignment
      rw [if_neg Bool.false_ne_true, hshell, if_neg Bool.false_ne_true]
      rfl

/-- A command has words or redirections. -/
private theorem eq_nil_of_empty {cmd : List ShellToken} (hoperands : operands cmd = [])
    (hredirections : redirections cmd = []) : cmd = [] := by
  cases cmd using operands.induct with
  | case1 => rfl
  | case2 w cmd => exact absurd hoperands (cons_ne_nil _ _)
  | case3 descriptor op w cmd => exact absurd hredirections (cons_ne_nil _ _)
  | case4 descriptor op cmd hne =>
    rw [redirections.eq_4 _ _ _ hne] at hredirections
    exact absurd hredirections (cons_ne_nil _ _)

/-- A redirection that the classifier allows. -/
private theorem redirectionAllowed_of_ok {cmd : List ShellToken} (halike : CommandAlike cmd)
    {r : Text × Option ShellWord} (hr : r ∈ redirections cmd)
    (hok : r.1.contains '>' = true → outputTargetOk (r.2.map ShellWord.text) = true) :
    redirectionAllowed r = true := by
  rw [redirectionAllowed]
  cases hwrites : r.1.contains '>' with
  | false => rfl
  | true =>
    have htarget := hok hwrites
    rw [Bool.not_true, Bool.false_or, Bool.or_eq_true, Bool.and_eq_true, beq_iff_eq]
    cases hsome : r.2 with
    | none =>
      rw [hsome] at htarget
      cases htarget
    | some t =>
      rw [hsome, Option.map_some, outputTargetOk, Bool.or_eq_true] at htarget
      rcases htarget with hnull | hnumber
      · exact .inr hnull
      · refine .inl ⟨halike.duplicates r hr hwrites ?_, hnumber⟩
        rw [hsome]
        exact hnumber

/-- A segment that is not found mutating is a command that is accepted. -/
theorem accepted_of_segmentClass {dirs : UserDirs} {cmd : List ShellToken} (halike : CommandAlike cmd)
    (hne : cmd ≠ []) (h : segmentClass dirs (cmd.flatMap ShellToken.toks) ≠ .mutating) :
    commandAccepted cmd = true ∧ (redirections cmd).all redirectionAllowed = true := by
  rw [segmentClass] at h
  split at h
  · exact absurd rfl h
  next words targets hscan =>
  have hnumbers : ∀ pre op post, cmd = pre ++ .redirect none op :: post →
      ([] ++ (operands pre).map ShellWord.text).getLast?.any isNumber = false := by
    intro pre op post heq
    rw [nil_append, getLast?_map, Option.any_map]
    exact halike.numbers pre op post heq
  obtain ⟨hwords, htargets, hok⟩ :=
    scanSegment_toks halike.words halike.targets hnumbers hscan
  rw [nil_append] at hwords htargets
  refine ⟨?_, all_eq_true.mpr fun r hr => redirectionAllowed_of_ok halike hr (hok r hr)⟩
  have hdrop := dropWhile_isAssignment halike.assignments
  rw [← hwords] at hdrop
  rw [hdrop] at h
  rw [commandAccepted]
  cases hcommand : (operands cmd).dropWhile isShellAssignment with
  | nil =>
    rw [hcommand, map_nil] at h
    dsimp only at h
    split at h
    · next hempty =>
      rw [Bool.and_eq_true, List.isEmpty_iff, List.isEmpty_iff] at hempty
      refine absurd (eq_nil_of_empty ?_ ?_) hne
      · exact map_eq_nil_iff.mp (hwords.symm.trans hempty.1)
      · rw [eq_nil_iff_forall_not_mem]
        intro r hr
        obtain ⟨t, ht⟩ := Option.ne_none_iff_exists'.mp (halike.targets r hr)
        have hmem : t.text ∈ targets := by
          rw [htargets, mem_filterMap]
          exact ⟨r, hr, by rw [ht, Option.map_some]⟩
        rw [hempty.2] at hmem
        exact absurd hmem not_mem_nil
    · exact absurd rfl h
  | cons name args =>
    rw [hcommand, map_cons] at h
    dsimp only at h ⊢
    split at h
    · exact absurd rfl h
    · next hclass =>
      cases hverdict : classifyCommand name.text (args.map ShellWord.text) with
      | readOnly => rfl
      | mutating => exact absurd hverdict hclass

/-! ## The verdict -/

end Taomni.Agent
