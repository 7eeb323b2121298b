import PolishCalc.Settings

namespace PolishCalc.CommandLine

def lines (ls : List String) : Text :=
  ls.flatMap fun line => line.toList ++ ['\n']

def programName : String := "clcs"

def usage : Text := lines [
  "usage: clcs [-h] [-e EVAL_EXPR] [--format \x7bjson,human\x7d] [-p PRECISION]",
  "            [--verbose] [--seed SEED] [-v]",
  "            [--log-level \x7bDEBUG,INFO,WARNING,ERROR\x7d] [--log-file LOG_FILE]",
  "            [--health-check]",
  "",
  "options:",
  "  -h, --help            show this help message and exit",
  "  -e EVAL_EXPR, --eval EVAL_EXPR",
  "                        Evaluate one expression and exit (non-interactive)",
  "  --format \x7bjson,human\x7d",
  "                        Output format: json (machine-readable) or human",
  "                        (human-readable)",
  "  -p PRECISION, --precision PRECISION",
  "                        Set result precision (decimal digits)",
  "  --verbose             Print every reduction step",
  "  --seed SEED           Seed the random operator for reproducible results",
  "  -v, --version         Show program version",
  "  --log-level \x7bDEBUG,INFO,WARNING,ERROR\x7d",
  "                        Set logging level",
  "  --log-file LOG_FILE   Write logs to file",
  "  --health-check        Run health check and verify dependencies"]

def greeting : Text := lines [
  "clcs: prefix notation calculator. Type 'help' for commands, 'quit' to exit."]

def consoleHelp : Text := lines [
  "clcs version " ++ version,
  "",
  "Expressions use prefix notation: the operator comes first.",
  "  + 1 2            → 3",
  "  * (+ 1 2) 4      → 12",
  "  + 1 * 2 3        → 7   (an operator in operand position takes the rest)",
  "  + 5              → ans + 5",
  "",
  "Operators:",
  "  +  add          -  subtract      *  multiply      /  divide",
  "  ^  power        \\  integer divide                %  modulo",
  "  r  random integer between two bounds (inclusive)",
  "Division, integer division and modulo by zero give 0.",
  "",
  "Constants: pi, e, ans (result of the last evaluation)",
  "",
  "Commands:",
  "  help                 Show this text",
  "  verbose              Toggle printing of every reduction step",
  "  precision [N|+|-]    Show or set the number of decimal digits",
  "  reset                Clear history, answer and precision",
  "  history              List accepted expressions",
  "  prev / next [TEXT]   Recall an older / newer expression for editing;",
  "                       TEXT is kept as the draft returned after the newest",
  "  ans                  Show the current answer",
  "  quit, exit           Leave",
  ""]

def prompt : Text := ">>> ".toList

end PolishCalc.CommandLine
