/-!
# Command-line arguments

The program is called with a command and options. Some options are **common** to all commands and
may stand before or after the command; if one is given in both places, the one after the command
counts. At one place an option may be given once. Everything after `--` is an operand.

An argument that asks for help, or is out of place, decides the outcome at once; what follows it is
not looked at. **The last option before the command waits** for the arguments of the command if its
value is an argument of its own: it is entered, and can be out of place, only after these. So a
request for help that stands there comes first.
-/

namespace SchemaLink.CommandLine

/-- What can be asked of the program. -/
inductive Topic where
  | order | check | types | identities | traverse | help
deriving DecidableEq

namespace Topic

/-- All topics. -/
def all : List Topic :=
  [order, check, types, identities, traverse, help]

/-- The word for a topic. -/
def word : Topic → String
  | order => "order"
  | check => "check"
  | types => "types"
  | identities => "identities"
  | traverse => "traverse"
  | help => "help"

/-- The topic of a word. -/
def ofWord? (s : String) : Option Topic :=
  all.find? (·.word = s)

end Topic

/-- A command. -/
inductive Command where
  | order | check | types | identities
  /-- Follows a path with the prefixes of a module. -/
  | traverse (home path : String)

/-- A complete call of the program. -/
structure Call where
  /-- The directory with the documents. -/
  input : Option String
  /-- A settings file. -/
  config : Option String
  strict : Bool
  json : Bool
  command : Command

/-- What the arguments amount to. -/
inductive Request where
  | run (call : Call)
  /-- Help on one topic or on the whole program. -/
  | help (topic : Option Topic)
  /-- The arguments make no sense. -/
  | misuse

/-- The options that take a value. -/
inductive ValueOption where
  | input | config | home
deriving DecidableEq

/-- The options that stand alone. -/
inductive Flag where
  | strict | json | help
deriving DecidableEq

/-- What one argument is. -/
inductive Token where
  | value (option : ValueOption) (attached : Option String)
  | flag (flag : Flag)
  | operand (text : String)
  /-- `--` -/
  | terminator
  | unknown

/-- A long option, without its hyphens; the option for the home of a path is only known to the
command that follows one. -/
def longOption (withHome : Bool) (cs : List Char) : Token :=
  let (name, rest) := cs.span (· != '=')
  let attached := if rest = [] then none else some (String.ofList rest.tail)
  match String.ofList name, attached with
  | "input", v => .value .input v
  | "config", v => .value .config v
  | "from", v => if withHome then .value .home v else .unknown
  | "strict", none => .flag .strict
  | "json", none => .flag .json
  | "help", none => .flag .help
  | _, _ => .unknown

/-- The value that is attached to a short option, with or without an equals sign. -/
def attachedValue : List Char → Option String
  | [] => none
  | '=' :: cs => some (String.ofList cs)
  | cs => some (String.ofList cs)

/-- Says what an argument is. -/
def token (withHome : Bool) (arg : String) : Token :=
  match arg.toList with
  | ['-', '-'] => .terminator
  | '-' :: '-' :: cs => longOption withHome cs
  | '-' :: 'i' :: cs => .value .input (attachedValue cs)
  | '-' :: 'c' :: cs => .value .config (attachedValue cs)
  | '-' :: 'h' :: _ => .flag .help
  | ['-'] => .operand arg
  | '-' :: _ => .unknown
  | _ => .operand arg

/-- The options and operands of one place. -/
structure Given where
  input : Option String := none
  config : Option String := none
  home : Option String := none
  strict : Bool := false
  json : Bool := false
  operand : Option String := none

namespace Given

/-- Enters the value of an option, once. A directory has a name. -/
def setValue (g : Given) (option : ValueOption) (v : String) : Option Given :=
  match option with
  | .input => if g.input.isSome ∨ v = "" then none else some { g with input := some v }
  | .config => if g.config.isSome then none else some { g with config := some v }
  | .home => if g.home.isSome then none else some { g with home := some v }

/-- Enters an option that is one argument, once. -/
def setOption (g : Given) : Token → Option Given
  | .flag .strict => if g.strict then none else some { g with strict := true }
  | .flag .json => if g.json then none else some { g with json := true }
  | .value option (some v) => g.setValue option v
  | _ => none

/-- Enters the one operand that a path-following command takes. -/
def setOperand (g : Given) (withHome : Bool) (v : String) : Option Given :=
  if withHome ∧ g.operand.isNone then some { g with operand := some v } else none

/-- The operands after `--`. -/
def setOperands (g : Given) (withHome : Bool) : List String → Option Given
  | [] => some g
  | v :: vs => (g.setOperand withHome v).bind (·.setOperands withHome vs)

end Given

/-- What stands before the command: the options that have been entered, and the value of an option
that waits to be entered. -/
structure Opening where
  given : Given := {}
  waiting : Option (ValueOption × String) := none

/-- Enters the value that waits. -/
def Opening.settle (o : Opening) : Option Given :=
  match o.waiting with
  | none => some o.given
  | some (option, v) => o.given.setValue option v

/-- The command of a topic, if it has all it needs. -/
def commandOf? (topic : Topic) (g : Given) : Option Command :=
  match topic with
  | .order => some .order
  | .check => some .check
  | .types => some .types
  | .identities => some .identities
  | .traverse => do some (.traverse (← g.home) (← g.operand))
  | .help => none

/-- The call that results from what is given before and after the command. -/
def finish (opening : Opening) (topic : Topic) (after : Given) : Request :=
  match opening.settle, commandOf? topic after with
  | none, _ | _, none => .misuse
  | some before, some command =>
    .run
      { input := after.input.or before.input
        config := after.config.or before.config
        strict := after.strict || before.strict
        json := after.json || before.json
        command }

/-- Reads the arguments after a command. -/
def readCommand (opening : Opening) (topic : Topic) (g : Given) : List String → Request
  | [] => finish opening topic g
  | arg :: rest =>
    let withHome := topic = .traverse
    match token withHome arg with
    | .flag .help => .help (some topic)
    | .operand v =>
      match g.setOperand withHome v with
      | some g' => readCommand opening topic g' rest
      | none => .misuse
    | .terminator =>
      match g.setOperands withHome rest with
      | some g' => finish opening topic g'
      | none => .misuse
    | .value option none =>
      match rest with
      | [] => .misuse
      | v :: rest' =>
        match token withHome v with
        | .operand v =>
          match g.setValue option v with
          | some g' => readCommand opening topic g' rest'
          | none => .misuse
        | _ => .misuse
    | t =>
      match g.setOption t with
      | some g' => readCommand opening topic g' rest
      | none => .misuse

/-- Reads what follows the word `help`. -/
def readHelp : List String → Request
  | [] => .help none
  | [word] => ((Topic.ofWord? word).map fun t ↦ Request.help (some t)).getD .misuse
  | _ => .misuse

/-- Reads the arguments before a command. -/
def readArguments (opening : Opening) : List String → Request
  | [] => .misuse
  | arg :: rest =>
    match token false arg with
    | .operand word =>
      match Topic.ofWord? word with
      | none => .misuse
      | some .help => readHelp rest
      | some topic => readCommand opening topic {} rest
    | t =>
      match opening.settle, t with
      | some _, .flag .help => .help none
      | some g, .value option none =>
        match rest with
        | [] => .misuse
        | v :: rest' =>
          match token false v with
          | .operand v => readArguments { given := g, waiting := some (option, v) } rest'
          | _ => .misuse
      | some g, t =>
        match g.setOption t with
        | some g' => readArguments { given := g' } rest
        | none => .misuse
      | none, _ => .misuse

/-- What the arguments of the program amount to. -/
def request (args : List String) : Request :=
  readArguments {} args

end SchemaLink.CommandLine
