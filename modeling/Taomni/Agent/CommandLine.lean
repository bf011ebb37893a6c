import Taomni.Agent.PathSafety
import Taomni.Common.Lines

/-!
# The classifier of shell commands

Reference: `src-tauri/src/agent/cmd_classify.rs`.

A command line is a list of characters. The inner loops of `lex` are modes of its main loop. The directories
of the user, which decide what a sensitive path is, are a parameter.
-/

namespace Taomni.Agent

open List

/-! ## Tables -/

inductive CommandClass where
  | readOnly
  | mutating
deriving DecidableEq

def readOnlyCmds : List String :=
  ["ls", "cat", "head", "tail", "wc", "stat", "file", "du", "df", "free", "uptime", "uname",
   "hostname", "whoami", "id", "groups", "pwd", "echo", "printf", "date", "cal", "printenv",
   "which", "type", "tree", "basename", "dirname", "realpath", "readlink", "tr", "column", "tac",
   "nl", "od", "hexdump", "xxd", "strings", "grep", "egrep", "fgrep", "rg", "ag", "ack", "ps",
   "pstree", "lsof", "ss", "netstat", "ping", "dig", "nslookup", "host", "getent", "lscpu", "lsblk",
   "lsusb", "lspci", "lsmod", "sensors", "vmstat", "iostat", "mpstat", "last", "w", "who", "cmp",
   "diff", "md5sum", "sha1sum", "sha256sum", "cksum", "jq", "cut"]

/-- The tools whose first argument decides whether they read. -/
def subcommandRead : List (String × List String) :=
  [("git",
     ["status", "log", "diff", "show", "blame", "rev-parse", "rev-list", "ls-files", "ls-remote",
      "shortlog", "describe", "reflog", "grep", "cat-file", "for-each-ref", "merge-base",
      "symbolic-ref", "name-rev", "whatchanged", "version"]),
   ("docker",
     ["ps", "images", "logs", "inspect", "port", "top", "stats", "version", "info", "history",
      "events"]),
   ("kubectl",
     ["get", "describe", "logs", "top", "explain", "api-resources", "api-versions", "version"]),
   ("systemctl",
     ["status", "list-units", "list-unit-files", "is-active", "is-enabled", "is-failed", "show",
      "cat", "get-default", "list-dependencies"])]

def secretNameExact : List String :=
  ["shadow", "credentials", ".pgpass", ".npmrc", ".htpasswd", "id_rsa", "id_dsa", "id_ecdsa",
   "id_ed25519", ".netrc"]

/-! ## Text -/

/-- `char::is_whitespace`. -/
def isWhitespace (c : Char) : Bool :=
  let n := c.toNat
  (9 ≤ n && n ≤ 13) || n == 32 || n == 0x85 || n == 0xA0 || n == 0x1680 ||
    (0x2000 ≤ n && n ≤ 0x200A) || n == 0x2028 || n == 0x2029 || n == 0x202F || n == 0x205F ||
    n == 0x3000

/-- `str::trim`. -/
def trim (s : Text) : Text := (s.dropWhile isWhitespace).rdropWhile isWhitespace

/-- The whitespace that is trimmed. -/
def leading (s : Text) : Text := s.takeWhile isWhitespace

def trailing (s : Text) : Text := (s.dropWhile isWhitespace).rtakeWhile isWhitespace

theorem eq_trim (s : Text) : s = leading s ++ trim s ++ trailing s := by
  rw [append_assoc, trim, trailing, rdropWhile_append_rtakeWhile, leading,
    takeWhile_append_dropWhile]

/-- A text without whitespace at its ends. -/
theorem trim_eq_self {s : Text} (hhead : ∀ c, s.head? = some c → isWhitespace c = false)
    (hlast : ∀ c, s.getLast? = some c → isWhitespace c = false) : trim s = s := by
  have hdrop : s.dropWhile isWhitespace = s := by
    cases s with
    | nil => rfl
    | cons c s => rw [dropWhile_cons, hhead c rfl, if_neg Bool.false_ne_true]
  unfold trim
  rw [hdrop, rdropWhile_eq_self_iff]
  intro hne
  rw [hlast _ (getLast?_eq_some_getLast hne)]
  exact Bool.false_ne_true

theorem trim_of_forall {s : Text} (h : ∀ c ∈ s, isWhitespace c = false) : trim s = s :=
  trim_eq_self (fun c hc => h c (mem_of_mem_head? hc))
    fun c hc => h c (mem_of_mem_getLast? hc)

/-- Whitespace around a text is trimmed first. -/
theorem trim_append {lead s tail : Text} (hlead : ∀ c ∈ lead, isWhitespace c = true)
    (htail : ∀ c ∈ tail, isWhitespace c = true) : trim (lead ++ (s ++ tail)) = trim s := by
  unfold trim
  rw [dropWhile_append_of_pos hlead, dropWhile_append]
  split
  · next hnil =>
    have hdrop : tail.dropWhile isWhitespace = [] := List.dropWhile_eq_nil_iff.mpr htail
    rw [hdrop, List.isEmpty_iff.mp hnil]
  · exact rdropWhile_append_of_forall htail

theorem trim_inside (s : Text) : trim s <:+: s :=
  (List.rdropWhile_prefix _ _).isInfix.trans (dropWhile_suffix _).isInfix

theorem trim_trim (s : Text) : trim (trim s) = trim s := by
  unfold trim
  by_cases h : (s.dropWhile isWhitespace).rdropWhile isWhitespace = []
  · rw [h]
    rfl
  · have hdrop : (s.dropWhile isWhitespace).dropWhile isWhitespace = s.dropWhile isWhitespace :=
      dropWhile_idempotent _ _
    rw [dropWhile_rdropWhile (by rwa [hdrop]), hdrop, rdropWhile_idempotent]

/-- `str::contains`. -/
def containsText (needle : Text) : Text → Bool
  | [] => needle.isEmpty
  | c :: s => needle.isPrefixOf (c :: s) || containsText needle s

theorem containsText_iff (needle s : Text) : containsText needle s = true ↔ needle <:+: s := by
  induction s with
  | nil => rw [containsText, List.isEmpty_iff, infix_nil]
  | cons c s ih =>
    rw [containsText, Bool.or_eq_true, isPrefixOf_iff_prefix, ih, infix_cons_iff]

/-- The word is in the table. -/
def listed (table : List String) (word : Text) : Bool := table.any (·.toList == word)

/-- What stands after the last `/`. -/
def baseName (word : Text) : Text := word.rtakeWhile (· != '/')

def isFlag (word : Text) : Bool := word.head? == some '-'

/-- A file descriptor: ASCII digits, and at least one. -/
def isNumber (word : Text) : Bool := !word.isEmpty && word.all Char.isDigit

/-! ## Words and operators -/

inductive Tok where
  | word (word : Text)
  | op (op : Text)
deriving DecidableEq

def isOp (c : Char) : Bool := c == '|' || c == '&' || c == ';' || c == '<' || c == '>'

inductive LexMode where
  | plain
  | single
  | double
  | doubleEscape
  | escape
  | operator (op : Text)
deriving DecidableEq

structure LexState where
  mode : LexMode
  word : Text
  toks : List Tok
deriving DecidableEq

namespace LexState

def start : LexState := ⟨.plain, [], []⟩

/-- `std::mem::take` of the word. -/
def flush (s : LexState) : LexState :=
  if s.word = [] then s else { s with word := [], toks := s.toks ++ [.word s.word] }

def push (s : LexState) (mode : LexMode) (c : Char) : LexState :=
  { s with mode := mode, word := s.word ++ [c] }

/-- A character of the main loop. -/
def plain (s : LexState) (c : Char) : LexState :=
  if c = '\'' then { s with mode := .single }
  else if c = '"' then { s with mode := .double }
  else if c = '\\' then { s with mode := .escape }
  else if isWhitespace c then s.flush
  else if isOp c then { s.flush with mode := .operator [c] }
  else s.push .plain c

/-- The end of a run of operator characters. -/
def endOperator (s : LexState) (op : Text) : LexState :=
  { s with mode := .plain, toks := s.toks ++ [.op op] }

def step (s : LexState) (c : Char) : LexState :=
  match s.mode with
  | .plain => s.plain c
  | .single => if c = '\'' then { s with mode := .plain } else s.push .single c
  | .double =>
    if c = '"' then { s with mode := .plain }
    else if c = '\\' then { s with mode := .doubleEscape }
    else s.push .double c
  | .doubleEscape => s.push .double c
  | .escape => s.push .plain c
  | .operator op =>
    if isOp c then { s with mode := .operator (op ++ [c]) } else (s.endOperator op).plain c

/-- `none` inside quotes or after a backslash. -/
def finish (s : LexState) : Option (List Tok) :=
  match s.mode with
  | .plain => some s.flush.toks
  | .operator op => some (s.endOperator op).flush.toks
  | _ => none

end LexState

def lex (s : Text) : Option (List Tok) := (s.foldl LexState.step .start).finish

/-! ## Segments -/

/-- An operator that ends a segment. -/
def isSeparator (op : Text) : Bool := !op.contains '<' && !op.contains '>'

/-- The finished segments, and the current one. -/
def splitStep (segs : List (List Tok) × List Tok) (t : Tok) : List (List Tok) × List Tok :=
  match t with
  | .op op => if isSeparator op then (segs.1 ++ [segs.2], []) else (segs.1, segs.2 ++ [.op op])
  | .word word => (segs.1, segs.2 ++ [.word word])

def splitSegments (toks : List Tok) : List (List Tok) :=
  let segs := toks.foldl splitStep ([], [])
  segs.1 ++ [segs.2]

/-- Redirections go to the bit-bucket or to a file descriptor. -/
def outputTargetOk : Option Text → Bool
  | some t => t == "/dev/null".toList || isNumber t
  | none => false

def Tok.word? : Tok → Option Text
  | word w => some w
  | op _ => none

/-- The number before a redirection is a file descriptor and no operand. -/
def popNumber (words : List Text) : List Text :=
  if words.getLast?.any isNumber then words.dropLast else words

/-- The words and the targets of redirections of a segment; `none` if a redirection writes. An operator
takes the next token with it, whatever that is. -/
def scanSegment : List Tok → List Text → List Text → Option (List Text × List Text)
  | [], words, targets => some (words, targets)
  | .word word :: seg, words, targets => scanSegment seg (words ++ [word]) targets
  | [.op op], words, targets =>
    if op.contains '>' && !outputTargetOk none then none else some (popNumber words, targets)
  | .op op :: t :: seg, words, targets =>
    if op.contains '>' && !outputTargetOk t.word? then none
    else scanSegment seg (popNumber words) (targets ++ t.word?.toList)

/-- `NAME=value`. -/
def isAssignment (word : Text) : Bool :=
  let name := word.takeWhile (· != '=')
  word.contains '=' && !name.isEmpty &&
    (name.head?.all fun c => c.isAlpha || c == '_') && name.tail.all fun c => c.isAlphanum || c == '_'

/-- Read-only unless an argument makes the command write. -/
def unlessSome (args : List Text) (writes : Text → Bool) : CommandClass :=
  if args.any writes then .mutating else .readOnly

def findActions : List String :=
  ["-delete", "-exec", "-execdir", "-ok", "-okdir", "-fprint", "-fprint0", "-fprintf", "-fls"]

def classifyCommand (cmd : Text) (args : List Text) : CommandClass :=
  let base := baseName cmd
  match subcommandRead.find? fun entry => entry.1.toList == base with
  | some (_, reads) =>
    match args.find? (!isFlag ·) with
    | some sub => if listed reads sub then .readOnly else .mutating
    | none => .mutating
  | none =>
    if base = "sed".toList then
      unlessSome args fun a => "--in-place".toList.isPrefixOf a ||
        (isFlag a && !"--".toList.isPrefixOf a && a.contains 'i')
    else if base = "find".toList then unlessSome args (listed findActions)
    else if base = "sort".toList then
      unlessSome args fun a => "-o".toList.isPrefixOf a || "--output".toList.isPrefixOf a
    else if base = "uniq".toList then
      if 2 ≤ (args.filter (!isFlag ·)).length then .mutating else .readOnly
    else if listed readOnlyCmds base then .readOnly
    else .mutating

/-! ## Secrets -/

/-- What `dirs` knows. -/
structure UserDirs where
  home : Option Text
  config : Option Text

/-- `PathBuf::join` with a name. -/
def joinPath (path name : Text) : Text :=
  if path = [] ∨ path.getLast? = some '/' then path ++ name else path ++ '/' :: name

def sensitiveDenyDirs (dirs : UserDirs) : List Text :=
  (dirs.home.map (joinPath · ".ssh".toList)).toList ++
    (dirs.config.map (joinPath · "taomni".toList)).toList

def pathIsSensitive (dirs : UserDirs) (path : Text) : Bool :=
  pathIsDenied path (sensitiveDenyDirs dirs) dirs.home

def referencesSensitive (dirs : UserDirs) (words : List Text) : Bool :=
  words.any fun w =>
    if isFlag w then false
    else if pathIsSensitive dirs w then true
    else
      let base := (baseName w).map Char.toLower
      listed secretNameExact base || containsText ".env".toList base ||
        ".pem".toList.isSuffixOf base || ".key".toList.isSuffixOf base

/-! ## The verdict -/

inductive SegResult where
  | readOnly
  | mutating
  | empty
deriving DecidableEq

def segmentClass (dirs : UserDirs) (seg : List Tok) : SegResult :=
  match scanSegment seg [] [] with
  | none => .mutating
  | some (words, targets) =>
    match words.dropWhile isAssignment with
    | [] => if words.isEmpty && targets.isEmpty then .empty else .mutating
    | cmd :: args =>
      if classifyCommand cmd args = .mutating then .mutating
      else if referencesSensitive dirs (cmd :: args) || referencesSensitive dirs targets then .mutating
      else .readOnly

/-- Command and process substitutions, which are not looked into. -/
def substitutions : List String := ["$(", "`", "<(", ">("]

def classify (dirs : UserDirs) (command : Text) : CommandClass :=
  let cmd := trim command
  if cmd.isEmpty then .mutating
  else if substitutions.any (fun s => containsText s.toList cmd) then .mutating
  else
    match lex cmd with
    | none => .mutating
    | some toks =>
      let results := (splitSegments toks).map (segmentClass dirs)
      if results.contains .mutating then .mutating
      else if results.contains .readOnly then .readOnly
      else .mutating

/-!
# What a shell reads

The token recognition of a POSIX shell, stated on its own: it says what a command line means, and
the classifier of `src-tauri/src/agent/cmd_classify.rs` is compared with it. Nothing is expanded: an
expansion stands in its word as it is written.
-/

/-! ## Tokens -/

structure ShellChar where
  char : Char
  quoted : Bool
deriving DecidableEq

abbrev ShellWord := List ShellChar

/-- The word after quote removal. -/
def ShellWord.text (w : ShellWord) : Text := w.map ShellChar.char

/-- The digits right before a redirection operator. -/
structure IoNumber where
  digits : Text
  isNumber : isNumber digits = true
deriving DecidableEq

inductive ShellToken where
  | word (w : ShellWord)
  | redirect (descriptor : Option IoNumber) (op : Text)
deriving DecidableEq

/-- What is open: quotes, or the braces of a parameter expansion. -/
inductive Quoting where
  | single
  | double
  | braces
deriving DecidableEq

/-! ## Reading -/

structure ShellState where
  contexts : List Quoting
  /-- The last character was a backslash that quotes the next one. -/
  escaped : Bool
  /-- The last character was a `$` that may begin an expansion. -/
  dollar : Bool
  comment : Bool
  token : Option ShellWord
  descriptor : Option IoNumber
  operator : Text
  command : List ShellToken
  commands : List (List ShellToken)
  /-- A command or process substitution was met. -/
  substitution : Bool
deriving DecidableEq

/-- The operators of more than one character. -/
def longOperators : List String :=
  ["&&", "||", ";;", "<<", ">>", "<&", ">&", "<>", ">|", "<<-"]

def isRedirect (op : Text) : Bool := op.contains '<' || op.contains '>'

namespace ShellState

def start : ShellState where
  contexts := []
  escaped := false
  dollar := false
  comment := false
  token := none
  descriptor := none
  operator := []
  command := []
  commands := []
  substitution := false

def push (s : ShellState) (c : Char) (quoted : Bool) : ShellState :=
  { s with token := some (s.token.getD [] ++ [⟨c, quoted⟩]), escaped := false, dollar := false }

/-- A character that may belong to an expansion. -/
def expand (s : ShellState) (c : Char) (quoted : Bool) : ShellState :=
  { s.push c quoted with
    dollar := c == '$' && !s.dollar
    substitution := s.substitution || c == '`' || (s.dollar && c == '(')
    contexts := if s.dollar && c == '{' then .braces :: s.contexts else s.contexts }

/-- Quotes begin a word, also an empty one. -/
def openQuote (s : ShellState) (quote : Quoting) : ShellState :=
  { s with contexts := quote :: s.contexts, token := some (s.token.getD []), dollar := false }

def endToken (s : ShellState) : ShellState :=
  match s.token with
  | some w => { s with token := none, command := s.command ++ [.word w], dollar := false }
  | none => { s with dollar := false }

def endCommand (s : ShellState) : ShellState :=
  { s with command := [], commands := s.commands ++ [s.command] }

/-- A redirection belongs to its command; another operator ends it. -/
def endOperator (s : ShellState) : ShellState :=
  if s.operator = [] then s
  else if isRedirect s.operator then
    { s with
      operator := []
      descriptor := none
      command := s.command ++ [.redirect s.descriptor s.operator] }
  else { s.endCommand with operator := [] }

/-- The token is an IO number if it is made of unquoted digits. -/
def ioNumber (s : ShellState) : Option IoNumber :=
  match s.token with
  | some w =>
    if h : isNumber w.text = true then if w.all (!·.quoted) then some ⟨w.text, h⟩ else none
    else none
  | none => none

def beginRedirect (s : ShellState) (c : Char) : ShellState :=
  match s.ioNumber with
  | some n => { s with token := none, descriptor := some n, operator := [c], dollar := false }
  | none => { s.endToken with descriptor := none, operator := [c] }

/-- An unquoted character that does not continue an operator. -/
def unquotedChar (s : ShellState) (c : Char) : ShellState :=
  if c = '\'' then s.openQuote .single
  else if c = '"' then s.openQuote .double
  else if c = ' ' ∨ c = '\t' then s.endToken
  else if c = '\n' then s.endToken.endCommand
  else if c = '<' ∨ c = '>' then s.beginRedirect c
  else if c = ';' ∨ c = '&' ∨ c = '|' then { s.endToken with operator := [c] }
  else if c = '(' ∨ c = ')' then
    { s.endToken.endCommand with substitution := s.substitution || (s.dollar && c == '(') }
  else if c = '#' ∧ s.token = none then { s with comment := true }
  else s.expand c false

/-- The character makes the operator a longer one. -/
def continues (s : ShellState) (c : Char) : Bool := listed longOperators (s.operator ++ [c])

def unquoted (s : ShellState) (c : Char) : ShellState :=
  if c = '\\' then { s with escaped := true }
  else if s.operator ≠ [] ∧ s.continues c then
    { s with operator := s.operator ++ [c], dollar := false }
  else
    -- an operator that ends in `<` or `>`, and a parenthesis, begin a process substitution
    let process := c == '(' && s.operator.getLast?.any fun d => d == '<' || d == '>'
    let s := s.endOperator.unquotedChar c
    { s with substitution := s.substitution || process }

/-- The characters that a backslash quotes inside double quotes. -/
def isDoubleEscape (c : Char) : Bool := c == '$' || c == '`' || c == '"' || c == '\\'

/-- The character after a backslash; a line continuation is removed. -/
def escapedChar (s : ShellState) (c : Char) : ShellState :=
  if c = '\n' then { s with escaped := false }
  else if s.contexts.contains .double ∧ !isDoubleEscape c then (s.push '\\' true).push c true
  else s.endOperator.push c true

def step (s : ShellState) (c : Char) : ShellState :=
  if s.comment then if c = '\n' then { s with comment := false }.endCommand else s
  else if s.escaped then s.escapedChar c
  else
    match s.contexts with
    | [] => s.unquoted c
    | .single :: outer =>
      if c = '\'' then { s with contexts := outer, dollar := false } else s.push c true
    | .double :: outer =>
      if c = '"' then { s with contexts := outer, dollar := false }
      else if c = '\\' then { s with escaped := true }
      else s.expand c true
    | .braces :: outer =>
      if c = '}' then { s.push c true with contexts := outer }
      else if c = '"' then s.openQuote .double
      else if c = '\'' ∧ !outer.contains .double then s.openQuote .single
      else if c = '\\' then { s with escaped := true }
      else s.expand c true

def finish (s : ShellState) : ShellState := s.endOperator.endToken.endCommand

end ShellState

/-- The state after reading the text. -/
def shellRun (text : Text) : ShellState := text.foldl ShellState.step .start

def shellRead (text : Text) : ShellState := (shellRun text).finish

/-! ## Simple commands -/

/-- The words of a command that are not targets of redirections. -/
def operands : List ShellToken → List ShellWord
  | [] => []
  | .word w :: cmd => w :: operands cmd
  | .redirect _ _ :: .word _ :: cmd => operands cmd
  | .redirect _ _ :: cmd => operands cmd

/-- The redirection operators and their targets. -/
def redirections : List ShellToken → List (Text × Option ShellWord)
  | [] => []
  | .word _ :: cmd => redirections cmd
  | .redirect _ op :: .word w :: cmd => (op, some w) :: redirections cmd
  | .redirect _ op :: cmd => (op, none) :: redirections cmd

/-- `NAME=value`, with nothing quoted up to the `=`. -/
def isShellAssignment (w : ShellWord) : Bool :=
  isAssignment w.text &&
    (w.take ((w.text.takeWhile (· != '=')).length + 1)).all (!·.quoted)

/-- The command word, after the assignments, is accepted with its arguments. -/
def commandAccepted (cmd : List ShellToken) : Bool :=
  match (operands cmd).dropWhile isShellAssignment with
  | name :: args => classifyCommand name.text (args.map ShellWord.text) == .readOnly
  | [] => false

/-- The redirection reads, duplicates a file descriptor or goes to the bit-bucket. -/
def redirectionAllowed (r : Text × Option ShellWord) : Bool :=
  !r.1.contains '>' || (r.1 == ">&".toList && r.2.any (isNumber ·.text)) ||
    r.2.any (·.text == "/dev/null".toList)

/-- What the classifier promises of a command line. -/
structure Safe (text : Text) : Prop where
  no_substitution : (shellRead text).substitution = false
  accepted : ∀ cmd ∈ (shellRead text).commands, cmd ≠ [] → commandAccepted cmd = true
  redirected : ∀ cmd ∈ (shellRead text).commands, (redirections cmd).all redirectionAllowed = true

end Taomni.Agent
