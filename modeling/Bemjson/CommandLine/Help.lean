import Bemjson.CommandLine.Args

namespace Bemjson.CommandLine

def versionText : String := "bh 0.1.0"

def helpText : String := versionText ++ "

Render BEMJSON to HTML.

Usage:
  bh [OPTIONS] <file.json>
  bh [OPTIONS] --input <bemjson>
  bh [OPTIONS] < file.json

Options:
  -i, --input <bemjson>      BEMJSON text to render. If omitted, reads the file
                             argument, or stdin when none is given (or '-').
  --options <json>           Options object, e.g. '\x7b\"jsAttrName\":\"data-bem\"\x7d'.
  --no-escape                Emit text content without escaping.
  --detect-loops             Abort runaway expansions.
  -v, --verbose              Print expansion metrics to stderr.
  --color                    Force ANSI color in the metrics report.
  --no-color                 Disable ANSI color in the metrics report.
  -h, --help                 Show this help message.
  -V, --version              Print version information.

Environment:
  BH_LOG                     Log filter (e.g. 'bh=debug', 'bh=trace').

Exit codes:
  0  Success.
  1  Render error (loop detected).
  2  Invalid arguments, options or input.
"

def UsageError.message : UsageError → String
  | secondInput => "error: input provided multiple times"
  | noValue option => "error: " ++ option ++ " expects a value"
  | badOptions e => "error: invalid --options: " ++ e.message
  | optionsNoObject => "error: --options expects a JSON object"
  | unknownOption arg => "error: unknown option '" ++ arg ++ "'"
  | unreadable path reason => "error: failed to read '" ++ path ++ "': " ++ reason
  | unreadableStdin reason => "error: failed to read stdin: " ++ reason
  | noInput => "error: no input provided\n\n" ++ helpText

end Bemjson.CommandLine
