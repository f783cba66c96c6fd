import SchemaLink.CommandLine.Report

/-!
# Help texts

The texts that the program prints when it is asked for help, and the short notice when its arguments
make no sense.
-/

namespace SchemaLink.CommandLine

/-- The name of the program. -/
def programName : String := "schema-resolve"

/-- What a topic is about. -/
def Topic.about : Topic → String
  | order => "Print the module processing order"
  | check => "Run the full pipeline and report diagnostics"
  | types => "Print every instantiated leaf and leaf-list with its effective type name"
  | identities => "Print base identities and identity table entries"
  | traverse => "Resolve a schema path"
  | help => "Print this message or the help of the given subcommand(s)"

/-- The lines on the common options. -/
def commonOptions : List String :=
  ["  -i, --input <INPUT>    Directory of parsed module documents (overrides config)",
   "  -c, --config <CONFIG>  Config file layered over the default locations",
   "      --strict           Abort on the first resolution failure",
   "      --json             Machine-readable output",
   "  -h, --help             Print help"]

/-- The line on a topic in the list of commands. -/
def topicLine (t : Topic) : String :=
  "  " ++ t.word ++ String.ofList (List.replicate (12 - t.word.length) ' ') ++ t.about

/-- The lines on how a topic is used. -/
def usageLines : Topic → List String
  | .traverse =>
    ["Usage: " ++ programName ++ " traverse [OPTIONS] --from <FROM> <PATH>", "", "Arguments:",
     "  <PATH>  Absolute or module-relative path", "", "Options:",
     "      --from <FROM>      Module whose prefixes the path uses"] ++ commonOptions
  | .help =>
    ["Usage: " ++ programName ++ " help [COMMAND]...", "", "Arguments:",
     "  [COMMAND]...  Print help for the subcommand(s)"]
  | t =>
    ["Usage: " ++ programName ++ " " ++ t.word ++ " [OPTIONS]", "", "Options:"] ++ commonOptions

/-- The help on a topic, or on the program. -/
def helpText : Option Topic → String
  | some t => lines (t.about :: "" :: usageLines t)
  | none =>
    lines
      (["Resolve cross-module references in parsed schema modules", "",
        "Usage: " ++ programName ++ " [OPTIONS] <COMMAND>", "", "Commands:"]
        ++ Topic.all.map topicLine ++ ["", "Options:"] ++ commonOptions)

/-- The outcome of a request for help. -/
def helpOutcome (topic : Option Topic) : Outcome :=
  { exitCode := 0, output := helpText topic }

/-- The outcome of arguments that make no sense. -/
def misuseOutcome : Outcome :=
  { exitCode := 2
    errors := "error: invalid arguments\n\nFor more information, try '--help'.\n" }

end SchemaLink.CommandLine
