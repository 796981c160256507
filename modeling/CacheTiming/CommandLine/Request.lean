import CacheTiming.Text.EditDistance
import CacheTiming.Text.Quoted

/-! What a command line asks for.

The words of a command line are flags and operands, in any order. The first operand names the command.
A flag is written by its name behind two hyphens, or by its letter behind one; letters may share a
hyphen. A flag that is no switch takes a value, which stands behind a `=`, behind its letter, or in the
next word. -/

namespace CacheTiming.CommandLine

open Text

/-- A flag. -/
inductive Flag where
  | config
  | noTraces
  | out
  | verbose
  | help
deriving DecidableEq, Repr

namespace Flag

/-- The flags of an analysis. -/
def all : List Flag := [config, noTraces, out, verbose, help]

/-- The name of a flag. -/
def name : Flag → String
  | config => "config"
  | noTraces => "no-traces"
  | out => "out"
  | verbose => "verbose"
  | help => "help"

/-- The letter of a flag, if it has one. -/
def letter? : Flag → Option Char
  | config => some 'c'
  | noTraces => none
  | out => some 'o'
  | verbose => some 'v'
  | help => some 'h'

/-- Whether a flag is a switch, which is on if no value stands with it. -/
def isSwitch : Flag → Bool
  | config | out => false
  | noTraces | verbose | help => true

/-- A flag as messages show it. -/
def shown (f : Flag) : String :=
  match f.letter? with
  | some c => "-" ++ String.singleton c ++ ", --" ++ f.name
  | none => "--" ++ f.name

end Flag

/-- Why a command line is refused. -/
inductive UsageError where
  | unknownCommand (word : String)
  | badSyntax (word : String)
  | unknownFlag (name : String)
  | unknownLetter (letters : List Char)
  | missingValue (flag : Flag)
  | missingLetterValue (letters : List Char)
  | badSwitch (flag : Flag) (value : String)
  | noPaths
deriving DecidableEq, Repr

/-! ### Words -/

/-- What a word of a command line says. -/
inductive Word where
  | operand
  /-- Only operands follow. -/
  | ending
  /-- Flags with their values. -/
  | flags (given : List (Flag × String))
  /-- Flags with their values, and one that takes the next word, or is at fault if there is none. -/
  | waiting (given : List (Flag × String)) (flag : Flag) (fault : UsageError)

namespace Word

/-- Reads a flag that is written by its name. -/
def ofName (known : List Flag) (word : List Char) : Except UsageError Word :=
  match word with
  | [] | '-' :: _ | '=' :: _ => .error (.badSyntax ("--" ++ String.ofList word))
  | _ =>
    let name := String.ofList (word.takeWhile (· ≠ '='))
    match known.find? (·.name = name), word.dropWhile (· ≠ '=') with
    | none, _ => .error (.unknownFlag name)
    | some f, _ :: value => .ok (.flags [(f, String.ofList value)])
    | some f, [] => if f.isSwitch then .ok (.flags [(f, "true")]) else .ok (.waiting [] f (.missingValue f))

/-- How letters start that are meant for a test runner. -/
def testLetters : List Char := ['t', 'e', 's', 't', '.']

/-- Reads flags that are written by their letters, behind those `given` already. What is meant for a
    test runner does not count. -/
def ofLetters (known : List Flag) (given : List (Flag × String)) : List Char → Except UsageError Word
  | [] => .ok (.flags given)
  | c :: rest =>
    if testLetters.isPrefixOf (c :: rest) then .ok (.flags given) else
    match known.find? (·.letter? = some c), rest with
    | none, _ => .error (.unknownLetter (c :: rest))
    | some f, '=' :: d :: value => .ok (.flags (given ++ [(f, String.ofList (d :: value))]))
    | some f, [] =>
      if f.isSwitch then .ok (.flags (given ++ [(f, "true")]))
      else .ok (.waiting given f (.missingLetterValue [c]))
    | some f, rest =>
      if f.isSwitch then ofLetters known (given ++ [(f, "true")]) rest
      else .ok (.flags (given ++ [(f, String.ofList rest)]))

/-- Reads a word. A lone hyphen is an operand. -/
def read (known : List Flag) (word : String) : Except UsageError Word :=
  match word.toList with
  | ['-', '-'] => .ok .ending
  | '-' :: '-' :: name => ofName known name
  | '-' :: c :: letters => ofLetters known [] (c :: letters)
  | _ => .ok .operand

end Word

/-! ### Options -/

/-- What flags and operands say. -/
structure Options where
  config : String := ""
  noTraces : Bool := false
  out : String := ""
  verbose : Bool := false
  help : Bool := false
  /-- The program files. -/
  paths : List String := []
deriving DecidableEq, Repr

namespace Options

/-- The value of a switch. -/
def readSwitch (f : Flag) (value : String) : Except UsageError Bool :=
  if ["1", "t", "T", "true", "TRUE", "True"].contains value then .ok true
  else if ["0", "f", "F", "false", "FALSE", "False"].contains value then .ok false
  else .error (.badSwitch f value)

/-- Sets one flag. -/
def set (o : Options) (f : Flag) (value : String) : Except UsageError Options :=
  match f with
  | .config => .ok { o with config := value }
  | .out => .ok { o with out := value }
  | .noTraces => (readSwitch f value).map fun b => { o with noTraces := b }
  | .verbose => (readSwitch f value).map fun b => { o with verbose := b }
  | .help => (readSwitch f value).map fun b => { o with help := b }

/-- Sets flags in order. -/
def setAll (o : Options) (given : List (Flag × String)) : Except UsageError Options :=
  given.foldlM (fun o (f, value) => o.set f value) o

/-- Reads words onto options. -/
def readAll (known : List Flag) (o : Options) : List String → Except UsageError Options
  | [] => .ok o
  | word :: rest =>
    match Word.read known word with
    | .error e => .error e
    | .ok .operand => readAll known { o with paths := o.paths ++ [word] } rest
    | .ok .ending => .ok { o with paths := o.paths ++ rest }
    | .ok (.flags given) =>
      match o.setAll given with
      | .error e => .error e
      | .ok o => readAll known o rest
    | .ok (.waiting given f fault) =>
      match rest with
      | [] => .error fault
      | value :: rest =>
        match o.setAll (given ++ [(f, value)]) with
        | .error e => .error e
        | .ok o => readAll known o rest

end Options

/-! ### Commands -/

/-- What a command line asks for. -/
inductive Request where
  | help
  | analyze (o : Options)
deriving DecidableEq, Repr

/-- Whether a word in front of the command is taken for a flag with its value in the next word. -/
def takesNext (word : String) : Bool :=
  word.startsWith "-" && !word.contains '=' && (word.startsWith "--" || word.utf8ByteSize = 2)

/-- The operands among the words of which no flag is known yet. -/
def operands : List String → List String
  | [] => []
  | word :: rest =>
    if word = "--" then
      []
    else if takesNext word then
      match rest with
      | _ :: next :: rest => operands (next :: rest)
      | _ => []
    else if word = "" ∨ word.startsWith "-" then
      operands rest
    else
      word :: operands rest

/-- The words without the first operand, which is the command. -/
def dropCommand (command : String) : List String → List String
  | [] => []
  | word :: rest =>
    if word = "--" then
      word :: rest
    else if takesNext word then
      match rest with
      | [] => [word]
      | value :: rest => word :: value :: dropCommand command rest
    else if word = command then
      rest
    else
      word :: dropCommand command rest

/-- Reads a command line. -/
def Request.read (args : List String) : Except UsageError Request :=
  match operands args with
  | [] => (Options.readAll [.help] {} args).map fun _ => .help
  | "analyze" :: _ =>
    match Options.readAll Flag.all {} (dropCommand "analyze" args) with
    | .error e => .error e
    | .ok o => if o.help then .ok .help else if o.paths.isEmpty then .error .noPaths else .ok (.analyze o)
  | "help" :: _ | "completion" :: _ => .ok .help
  | word :: _ => .error (.unknownCommand word)

/-! ### Messages -/

/-- The commands that a mistyped word may mean, where the case of ASCII letters does not count. -/
def suggestions (word : String) : List String :=
  let typed := utf8 word.toLower
  ["analyze", "completion"].filter fun command =>
    editDistance typed (utf8 command) ≤ 2 || typed.isPrefixOf (utf8 command)

/-- A letter in quotes. A letter outside ASCII is shown by the first byte of its encoding. -/
def quoteLetter (c : Char) : String :=
  let byte := Char.ofNat ((utf8 (String.singleton c)).headD 0).toNat
  if byte = '\'' then "'\\''"
  else if byte = '"' then "'\"'"
  else "'" ++ (Glyph.char byte).quoted ++ "'"

/-- Names the first of some letters, and shows all of them. -/
def lettersText (letters : List Char) : String :=
  quoteLetter (letters.headD '-') ++ " in -" ++ String.ofList letters

/-- The wording of a usage error. -/
def UsageError.message : UsageError → String
  | .unknownCommand word =>
    let meant := suggestions word
    "unknown command " ++ quoteString word ++ " for \"cacheaudit\"" ++
      if meant.isEmpty then ""
      else "\n\nDid you mean this?\n" ++ String.join (meant.map fun command => "\t" ++ command ++ "\n")
  | .badSyntax word => "bad flag syntax: " ++ word
  | .unknownFlag name => "unknown flag: --" ++ name
  | .unknownLetter letters => "unknown shorthand flag: " ++ lettersText letters
  | .missingValue flag => "flag needs an argument: --" ++ flag.name
  | .missingLetterValue letters => "flag needs an argument: " ++ lettersText letters
  | .badSwitch flag value =>
    "invalid argument " ++ quoteString value ++ " for " ++ quoteString flag.shown ++
      " flag: strconv.ParseBool: parsing " ++ quoteString value ++ ": invalid syntax"
  | .noPaths => "requires at least 1 arg(s), only received 0"

end CacheTiming.CommandLine
