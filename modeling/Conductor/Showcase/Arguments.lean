import Conductor.Text.Numeral
import Conductor.Text.Quoted

/-!
# Command lines

The showcase takes a topic and a count. An option may be shortened as long as it stays clear, and
its value may follow it after an equals sign. Arguments that look like negative numbers or hold a
blank are values and not options.

Reading goes in two passes. The first tells options from values; a name that fits several options is
a fault at once. The second gives the options their values in order, and asking for help ends it.
What is left over is a fault in the end.
-/

namespace Conductor

namespace Showcase

/-- What the showcase is run with. -/
structure Arguments where
  topic : String
  count : Int
  deriving DecidableEq, Repr

/-- How reading a command line ends early. -/
inductive Stop where
  /-- Help was asked for. -/
  | help
  /-- The command line has a fault. -/
  | fault (message : String)
  deriving DecidableEq, Repr

/-- The options. -/
inductive Name where
  | help
  | topic
  | count
  deriving DecidableEq, Repr

/-- How an option is written in full. -/
def spellings : List (String × Name) :=
  [("-h", .help), ("--help", .help), ("--topic", .topic), ("--count", .count)]

namespace Name

/-- How an option is called in faults. -/
def title : Name → String
  | .help => "-h/--help"
  | .topic => "--topic"
  | .count => "--count"

end Name

/-! ## Telling options from values -/

/-- What one argument is. -/
inductive Token where
  | value
  /-- The mark behind which everything is a value. -/
  | mark
  /-- An option as it is written in full, and the value that was written with it. -/
  | option (name : Name) (written : String) (given : Option String)
  /-- Something that looks like an option and is none. -/
  | unknown
  deriving DecidableEq, Repr

/-- A text up to its first equals sign, and what follows that. -/
def splitEquals (cs : List Char) : List Char × Option (List Char) :=
  let (before, rest) := cs.span (· != '=')
  (before, match rest with | [] => none | _ :: after => some after)

/-- Whether one text begins another. -/
def begins (start text : List Char) : Bool := start.isPrefixOf text

/-- The options that an argument may mean if it is not written in full. -/
def candidates (cs : List Char) : List (Name × String × Option String) :=
  match cs with
  | '-' :: '-' :: _ =>
    let (start, given) := splitEquals cs
    (spellings.filter fun (s, _) => begins start s.toList).map fun (s, n) =>
      (n, s, given.map String.ofList)
  | '-' :: c :: rest =>
    spellings.filterMap fun (s, n) =>
      if s.toList == ['-', c] then some (n, s, some (String.ofList rest))
      else if begins cs s.toList then some (n, s, none)
      else none
  | _ => []

/-- Whether an argument looks like a negative number. -/
def isNegativeNumber : List Char → Bool
  | '-' :: cs =>
    let isDecimal (c : Char) : Bool := (Text.decimalValue? c).isSome
    let (whole, rest) := cs.span isDecimal
    match rest with
    | [] => !whole.isEmpty
    | '.' :: fraction => !fraction.isEmpty && fraction.all isDecimal
    | _ => false
  | _ => false

/-- What an argument is. -/
def tokenOf (arg : String) : Except Stop Token :=
  let cs := arg.toList
  match cs with
  | [] | ['-'] => .ok .value
  | c :: _ =>
    if c != '-' then .ok .value
    else match spellings.lookup arg with
      | some n => .ok (.option n arg none)
      | none =>
        let (start, given) := splitEquals cs
        match spellings.lookup (String.ofList start), given with
        | some n, some g => .ok (.option n (String.ofList start) (some (String.ofList g)))
        | _, _ =>
          match candidates cs with
          | [(n, written, given)] => .ok (.option n written given)
          | [] =>
            if isNegativeNumber cs || cs.contains ' ' then .ok .value else .ok .unknown
          | several =>
            let names := String.intercalate ", " (several.map fun (_, s, _) => s)
            .error (.fault s!"ambiguous option: {arg} could match {names}")

/-- What all arguments are. Behind the mark everything is a value. -/
def tokens : List String → Except Stop (List (String × Token))
  | [] => .ok []
  | arg :: rest =>
    if arg == "--" then .ok ((arg, .mark) :: rest.map fun a => (a, .value))
    else do
      let t ← tokenOf arg
      let ts ← tokens rest
      .ok ((arg, t) :: ts)

/-! ## Giving options their values -/

/-- A fault of an option. -/
def faultOf {α : Type} (n : Name) (message : String) : Except Stop α :=
  let title := n.title
  .error (.fault s!"argument {title}: {message}")

/-- Gives an option its value. -/
def assign (a : Arguments) (n : Name) (value : String) : Except Stop Arguments :=
  match n with
  | .help => .error .help
  | .topic => .ok { a with topic := value }
  | .count =>
    match Text.readInteger value with
    | .ok i => .ok { a with count := i }
    | .error _ =>
      let shown := Text.quoted value
      faultOf n s!"invalid int value: {shown}"

/-- Something written behind the option for help is a value, which it does not take. -/
def helpGiven (value : List Char) : Stop :=
  let title := Name.help.title
  let shown := Text.quoted (String.ofList value)
  .fault s!"argument {title}: ignored explicit argument {shown}"

/-- Asks for help by a row of short options that are written together. The row ends with an equals
sign, a dash or the first letter that is no option. -/
def helpRow : List Char → Stop
  | [] => .help
  | ['h'] => .help
  | 'h' :: '=' :: value => helpGiven value
  | '-' :: rest => helpGiven ('-' :: rest)
  | 'h' :: rest => helpRow rest
  | _ => .help

/-- Asks for help with something written behind the option. -/
def helpWith (arg written : String) (given : List Char) : Stop :=
  if written == "-h" && !begins "-h=".toList arg.toList then helpRow given
  else helpGiven given

/-- Gives options their values in order; with the arguments that are left over. -/
def assignAll (a : Arguments) : List (String × Token) → Except Stop (Arguments × List String)
  | [] => .ok (a, [])
  | (arg, .value) :: rest | (arg, .mark) :: rest | (arg, .unknown) :: rest => do
    let (a, more) ← assignAll a rest
    .ok (a, arg :: more)
  | (arg, .option .help written (some given)) :: _ => .error (helpWith arg written given.toList)
  | (_, .option .help _ none) :: _ => .error .help
  | (_, .option n _ (some given)) :: rest => do
    let a ← assign a n given
    assignAll a rest
  | (_, .option n _ none) :: (value, .value) :: rest => do
    let a ← assign a n value
    assignAll a rest
  | (_, .option n _ none) :: _ => faultOf n "expected one argument"

/-- Reads a command line. -/
def readArguments (args : List String) : Except Stop Arguments := do
  let ts ← tokens args
  let (a, extra) ← assignAll ⟨"tides", 3⟩ ts
  if extra.isEmpty then .ok a
  else
    let row := String.intercalate " " extra
    .error (.fault s!"unrecognized arguments: {row}")

/-! ## Texts -/

/-- How the showcase is called. -/
def program : String := "basic_usage.py"

/-- The line on how to call the showcase. -/
def usage : String := s!"usage: {program} [-h] [--topic TOPIC] [--count COUNT]\n"

/-- The help. -/
def help : String :=
  usage ++ "\nRun the example workflow and task.\n\noptions:\n" ++
  "  -h, --help     show this help message and exit\n" ++
  "  --topic TOPIC  Topic handed to the agents\n" ++
  "  --count COUNT  Number of records to fetch\n"

end Showcase

end Conductor
