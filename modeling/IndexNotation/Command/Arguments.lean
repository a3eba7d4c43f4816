import IndexNotation.Text.Digit
import IndexNotation.Text.Quoted

/-!
# Command-line arguments

Arguments are options, which start with a dash, or words. An option may be shortened as long as it
stays unique, its value may follow after an equals sign or as the next word, and options of one
letter may be joined. After two dashes there are only words.
-/

namespace IndexNotation.Command

/-- An option. -/
structure Flag where
  /-- All spellings. -/
  names : List String
  takesValue : Bool := false
  /-- What is wrong with a value, if anything is. -/
  complaint : String → Option String := fun _ => none

/-- The name of an option in messages. -/
def Flag.label (f : Flag) : String := "/".intercalate f.names

/-- What the words of a command are. -/
inductive Words where
  /-- One word. -/
  | one (name : String)
  /-- A word and everything that follows it, options included. -/
  | rest

/-- What a command understands. -/
structure Interface where
  program : String
  usage : String
  help : String
  flags : List Flag
  words : Words

/-- Why reading the arguments came to an end. -/
inductive Stop where
  /-- Help was asked for. -/
  | help (text : String)
  /-- The arguments make no sense. -/
  | misuse (text : String)

namespace Interface

def misuse {α : Type} (g : Interface) (message : String) : Except Stop α :=
  .error (.misuse (g.usage ++ g.program ++ ": error: " ++ message ++ "\n"))

/-- A complaint about one option. -/
def blame {α : Type} (g : Interface) (f : Flag) (message : String) : Except Stop α :=
  g.misuse ("argument " ++ f.label ++ ": " ++ message)

/-- The options by their spellings. -/
def spellings (g : Interface) : List (String × Flag) :=
  g.flags.flatMap fun f => f.names.map fun n => (n, f)

end Interface

/-! ## Telling options from words -/

/-- The value that is joined to an option. -/
structure Joined where
  value : String
  /-- Whether an equals sign stands in front of it. -/
  equals : Bool

/-- An option as it was written. -/
structure Reading where
  name : String
  flag : Flag
  joined : Option Joined := none

inductive Argument where
  /-- The two dashes after which there are only words. -/
  | dashes
  | word (s : String)
  | option (text : String) (r : Reading)
  | unknown (text : String)

def Argument.text : Argument → String
  | dashes => "--"
  | word s => s
  | option s _ => s
  | unknown s => s

/-- The parts of a text before and after the first equals sign. -/
def splitEquals (s : String) : String × Option String :=
  let cs := s.toList
  match cs.dropWhile (· != '=') with
  | [] => (s, none)
  | _ :: rest => (String.ofList (cs.takeWhile (· != '=')), some (String.ofList rest))

def startsWith (whole start : String) : Bool :=
  start.toList.isPrefixOf whole.toList

/-- The options that a text may be short for. -/
def Interface.candidates (g : Interface) (s : String) : List Reading :=
  if startsWith s "--" then
    let (start, value) := splitEquals s
    (g.spellings.filter fun p => startsWith p.1 start).map fun p =>
      ⟨p.1, p.2, value.map fun v => ⟨v, true⟩⟩
  else
    let letter := String.ofList (s.toList.take 2)
    let value := String.ofList (s.toList.drop 2)
    g.spellings.filterMap fun p =>
      if p.1 == letter then some ⟨p.1, p.2, some ⟨value, false⟩⟩
      else if startsWith p.1 s then some ⟨p.1, p.2, none⟩
      else none

/-- A negative number is a word. -/
def isNegativeNumber (s : String) : Bool :=
  match s.toList with
  | '-' :: cs =>
    let whole := cs.takeWhile Text.isDigit
    match cs.dropWhile Text.isDigit with
    | [] => !whole.isEmpty
    | '.' :: fraction => !fraction.isEmpty && fraction.all Text.isDigit
    | _ => false
  | _ => false

def Interface.classify (g : Interface) (s : String) : Except Stop Argument :=
  if s.isEmpty || !startsWith s "-" || s == "-" then .ok (.word s)
  else
    match g.spellings.lookup s with
    | some f => .ok (.option s ⟨s, f, none⟩)
    | none =>
      let (name, value) := splitEquals s
      match g.spellings.lookup name, value with
      | some f, some v => .ok (.option s ⟨name, f, some ⟨v, true⟩⟩)
      | _, _ =>
        match g.candidates s with
        | [r] => .ok (.option s r)
        | [] =>
          if isNegativeNumber s || s.toList.contains ' ' then .ok (.word s) else .ok (.unknown s)
        | rs => g.misuse ("ambiguous option: " ++ s ++ " could match " ++
            ", ".intercalate (rs.map (·.name)))

/-- All arguments; after two dashes there are only words. -/
def Interface.classifyAll (g : Interface) : List String → Except Stop (List Argument)
  | [] => .ok []
  | s :: rest =>
    if s == "--" then .ok (.dashes :: rest.map .word)
    else do
      let a ← g.classify s
      return a :: (← g.classifyAll rest)

/-! ## Taking options and words -/

/-- What the arguments say. -/
structure Parsed where
  /-- The options by their last spelling, in order, with their values. -/
  options : List (String × String) := []
  /-- The words of the command, once they are found. -/
  words : Option (List String) := none
  /-- What nothing was made of. -/
  extras : List String := []

namespace Parsed

def has (p : Parsed) (name : String) : Bool :=
  p.options.any (·.1 == name)

/-- All values of an option, in order. -/
def values (p : Parsed) (name : String) : List String :=
  (p.options.filter (·.1 == name)).map (·.2)

end Parsed

namespace Interface

/-- Takes an option with its value. -/
def take (g : Interface) (p : Parsed) (f : Flag) (value : String) : Except Stop Parsed :=
  if f.names.contains "--help" then .error (.help g.help)
  else
    match f.complaint value with
    | some message => g.blame f message
    | none => .ok { p with options := p.options ++ [(f.names.getLastD "", value)] }

/-- The options that are joined to a first one of one letter, and what is left of the text. -/
def cluster (g : Interface) (f : Flag) (equals : Bool) :
    List Char → Except Stop (List Flag × List String)
  | [] => g.blame f "ignored explicit argument \x27\x27"
  | c :: cs =>
    if equals || c == '-' then
      g.blame f ("ignored explicit argument " ++ Text.quoted (String.ofList (c :: cs)))
    else
      match g.spellings.lookup (String.ofList ['-', c]) with
      | none => .ok ([f], [String.ofList ('-' :: c :: cs)])
      | some next =>
        match cs with
        | [] => .ok ([f, next], [])
        | '=' :: more => do
          let (fs, extras) ← g.cluster next true more
          return (f :: fs, extras)
        | cs => do
          let (fs, extras) ← g.cluster next false cs
          return (f :: fs, extras)

/-- Takes an option that a value is joined to. -/
def takeJoined (g : Interface) (p : Parsed) (r : Reading) (j : Joined) : Except Stop Parsed :=
  if r.flag.takesValue then g.take p r.flag j.value
  else if startsWith r.name "--" then
    g.blame r.flag ("ignored explicit argument " ++ Text.quoted j.value)
  else do
    let (fs, extras) ← g.cluster r.flag j.equals j.value.toList
    let p ← fs.foldlM (fun p f => g.take p f "") p
    return { p with extras := p.extras ++ extras }

/-- Takes the arguments one after another. -/
def takeAll (g : Interface) : List Argument → Parsed → Except Stop Parsed
  | [], p => .ok p
  | .unknown s :: rest, p => g.takeAll rest { p with extras := p.extras ++ [s] }
  | .option _ ⟨name, f, some j⟩ :: rest, p => do
    g.takeAll rest (← g.takeJoined p ⟨name, f, some j⟩ j)
  | .option _ ⟨_, f, none⟩ :: rest, p =>
    if f.takesValue then
      match rest with
      | .word v :: rest => do g.takeAll rest (← g.take p f v)
      | _ => g.blame f "expected one argument"
    else do g.takeAll rest (← g.take p f "")
  | .dashes :: .word w :: rest, p =>
    match g.words, p.words with
    | .rest, none => .ok { p with words := some ("--" :: w :: rest.map Argument.text) }
    | .one _, none => g.takeAll rest { p with words := some [w] }
    | _, some _ => g.takeAll rest { p with extras := p.extras ++ ["--", w] }
  | .dashes :: rest, p => g.takeAll rest { p with extras := p.extras ++ ["--"] }
  | .word w :: rest, p =>
    match g.words, p.words with
    | .rest, none => .ok { p with words := some (w :: rest.map Argument.text) }
    | .one _, none =>
      match rest with
      | .dashes :: rest => g.takeAll rest { p with words := some [w] }
      | rest => g.takeAll rest { p with words := some [w] }
    | _, some _ => g.takeAll rest { p with extras := p.extras ++ [w] }

/-- Reads arguments. A word that is asked for has to be there. -/
def parse (g : Interface) (argv : List String) : Except Stop Parsed := do
  let p ← g.takeAll (← g.classifyAll argv) {}
  match g.words, p.words with
  | .one name, none => g.misuse ("the following arguments are required: " ++ name)
  | _, _ => return p

end Interface
end IndexNotation.Command
