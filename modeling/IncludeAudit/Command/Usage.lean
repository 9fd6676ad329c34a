import IncludeAudit.Cache.Basic
import IncludeAudit.Command.Arguments

/-!
# IncludeAudit.Command.Usage

What the command says about itself.

* `versionText`, `helpText`: the answers to the options of these names.
* `UsageProblem.text`: what is said when arguments are refused.
-/

namespace IncludeAudit

def versionText : String := "deadinc " ++ ownVersion ++ "\n"

def usageLine : String := "Usage: deadinc [OPTIONS] [PATH]"

def helpLines : List String := [
  "Unused #include detector for C translation units",
  "",
  usageLine,
  "",
  "Arguments:",
  "  [PATH]  Event stream file, or a directory searched for *.events.jsonl [default: .]",
  "",
  "Options:",
  "      --json                    Output results in JSON format",
  "      --werror                  Report every diagnostic as an error",
  "      --config <FILE>           Configuration file (defaults to deadinc.toml next to the streams)",
  "      --no-cache                Do not read or write the incremental cache",
  "      --strict                  Fail on the first malformed event stream",
  "      --ignore <PATTERN>        Drop diagnostics for included files matching this pattern (repeatable)",
  "      --system-prefix <PREFIX>  Path prefix of system headers (repeatable; replaces the configured list)",
  "      --header-suffix <SUFFIX>  Suffix of trackable headers (repeatable; replaces the configured list)",
  "  -h, --help                    Print help",
  "  -V, --version                 Print version"]

def helpText : String := String.join (helpLines.map (· ++ "\n"))

namespace UsageProblem

def reason : UsageProblem → String
  | unexpected argument => "unexpected argument '" ++ argument ++ "' found"
  | repeated option => "the argument '" ++ option ++ "' cannot be used multiple times"
  | valueMissing option => "a value is required for '" ++ option ++ "' but none was supplied"
  | valueUnneeded option value =>
    "unexpected value '" ++ value ++ "' for '" ++ option ++ "' found; no more were expected"

def lines (p : UsageProblem) : List String :=
  ["error: " ++ p.reason, "", usageLine, "", "For more information, try '--help'."]

end UsageProblem
end IncludeAudit
