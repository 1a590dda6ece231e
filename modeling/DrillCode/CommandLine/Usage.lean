/-! # Version and usage -/

namespace DrillCode.CommandLine

def versionText : String := "eqrx 0.1.0"

def usage : List String := [
  "Usage: eqrx [OPTIONS] <COMMAND>",
  "",
  "Commands:",
  "  decode [PAYLOAD]",
  "  run [PAYLOAD]",
  "  exercises --tag TAG [PAYLOAD]",
  "  check --tag TAG [--index N] --answer X PAYLOAD",
  "  eval [--var NAME=VALUE]... [--disasm] EXPR",
  "",
  "Options:",
  "  --hex  --seed N  --json  --config FILE  --step-limit N",
  "  -v, --verbose  -h, --help  -V, --version"]

end DrillCode.CommandLine
