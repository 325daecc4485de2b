import SchemaByExample.Command.Arguments

/-! The help texts. -/
namespace SchemaByExample.Command

def programName : String := "json-sketch-schema"

def about : Product → String
  | .schema => "infer and print the JSON schema"
  | .shape => "print the intermediate shape tree (debug view)"

def helpAbout : String := "Print this message or the help of the given subcommand(s)"

def textOfLines (lines : List String) : String := String.join (lines.map (· ++ "\n"))

def mainHelp : String := textOfLines [
  "infer a draft-04 JSON schema from example JSON documents (one schema per document)",
  "",
  "Usage: " ++ programName ++ " <COMMAND>",
  "",
  "Commands:",
  "  schema  " ++ about .schema,
  "  shape   " ++ about .shape,
  "  help    " ++ helpAbout,
  "",
  "Options:",
  "  -h, --help  Print help"]

def productHelp (p : Product) : String := textOfLines [
  about p,
  "",
  "Usage: " ++ programName ++ " " ++ productName p ++ " [OPTIONS] --input <INPUT>...",
  "",
  "Options:",
  "      --ndjson                       treat input as newline-delimited JSON (NDJSON)",
  "      --json-pointer <JSON_POINTER>  JSON Pointer to select a subnode in each document " ++
    "(e.g. /data/items/0/payload)",
  "      --jq-expr <JQ_EXPR>            JQ pre-process filter for each document",
  "  -i, --input <INPUT>...             One or more inputs. May be literal paths or quoted " ++
    "glob patterns or '-' for stdin",
  "  -o, --out <OUT>                    output .json file (stdout if omitted)",
  "      --compact                      single-line output",
  "      --no-op                        debugging",
  "  -h, --help                         Print help"]

def helpHelp : String := textOfLines [
  helpAbout,
  "",
  "Usage: " ++ programName ++ " help [COMMAND]...",
  "",
  "Arguments:",
  "  [COMMAND]...  Print help for the subcommand(s)"]

def HelpTopic.text : HelpTopic → String
  | .main => mainHelp
  | .product p => productHelp p
  | .help => helpHelp

end SchemaByExample.Command
