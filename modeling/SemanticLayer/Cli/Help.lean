import SemanticLayer.Cli.Grammar

/-!
# Help pages

A help page has the usage of a command, what it does, and its options in two columns.  Lines have at
most seventy-eight characters.  The page of all commands has the first sentence of each.
-/

namespace SemanticLayer.Cli

def pageWidth : Nat := 78

def words (s : String) : List String := (Text.split s " ").filter (!·.isEmpty)

def blanks (n : Nat) : String := String.ofList (List.replicate n ' ')

def spacedWords (s : String) : List (Nat × String) :=
  ((Text.split s " ").foldl (fun (found, gap) w =>
    if w.isEmpty then (found, gap + 1) else (found ++ [(gap, w)], 1))
    (([] : List (Nat × String)), 0)).1

def wrapStep (width : Nat) (lines : List String) (word : Nat × String) : List String :=
  match lines.getLast? with
  | none => [word.2]
  | some last =>
    let longer := last ++ blanks word.1 ++ word.2
    if longer.length ≤ width then lines.dropLast ++ [longer] else lines ++ [word.2]

def wrap (width : Nat) (s : String) : List String := (spacedWords s).foldl (wrapStep width) []

def indent (n : Nat) (line : String) : String := blanks n ++ line

def columns (rows : List (String × String)) : List String :=
  let widest := rows.foldl (fun n (a, _) => max n a.length) 0
  let first := min widest 30 + 2
  rows.flatMap fun (a, b) =>
    match wrap (max (pageWidth - first - 2) 10) b with
    | [] => [indent 2 a]
    | line :: more =>
      let start := if a.length + 2 ≤ first then [indent 2 (a ++ blanks (first - a.length) ++ line)]
        else [indent 2 a, indent (first + 2) line]
      start ++ more.map (indent (first + 2))

def parameterRow (p : Parameter) : String × String :=
  (p.option ++ (if p.takesText then " TEXT" else ""), p.help)

def helpParameter : Parameter :=
  { name := "help", help := "Show this message and exit.", takesText := false }

def versionParameter : Parameter :=
  { name := "version", help := "Show the version and exit.", takesText := false }

def programName : String := "cli-group"

def Command.path (c : Command) : String := programName ++ " " ++ c.name

def Command.usage (c : Command) : String :=
  "Usage: " ++ c.path ++ " [OPTIONS]" ++ (match c.argument with
    | some a => " " ++ a
    | none => "")

def usage : String := "Usage: " ++ programName ++ " [OPTIONS] COMMAND [ARGS]..."

private def page (lines : List String) : String := String.join (lines.map (· ++ "\n"))

def paragraphs (help : List String) : List String :=
  help.flatMap fun p => "" :: (wrap (pageWidth - 2) p).map (indent 2)

def Command.page (c : Command) : String :=
  Cli.page ([c.usage] ++ paragraphs c.help ++ ["", "Options:"]
    ++ columns ((c.parameters ++ [helpParameter]).map parameterRow))

/-! ### All commands -/

def fitting (limit : Nat) (ws : List String) : Nat → Nat
  | 0 => 0
  | n + 1 =>
    if (Text.join " " (ws.take (n + 1))).length + 3 ≤ limit then n + 1 else fitting limit ws n

def summary (limit : Nat) (s : String) : String :=
  let ws := words s
  let sentence := match ws.findIdx? fun w => Text.endsWith w "." with
    | some i => ws.take (i + 1)
    | none => ws
  let short := Text.join " " sentence
  if short.length ≤ limit then short
  else Text.join " " (ws.take (fitting limit ws (ws.length - 1))) ++ "..."

def commandsPage (commands : List Command) : String :=
  let widest := commands.foldl (fun n c => max n c.name.length) 0
  let limit := pageWidth - 6 - widest
  Cli.page ([usage, "", "Options:"]
    ++ columns ([versionParameter, helpParameter].map parameterRow) ++ ["", "Commands:"]
    ++ columns ((commands.mergeSort fun a b => decide (a.name ≤ b.name)).map fun c =>
      (c.name, summary limit (c.help.head?.getD ""))))

/-! ### Mistakes -/

def mistakePage (usage path : String) (m : Mistake) : String :=
  Cli.page [usage, "Try '" ++ path ++ " --help' for help.", "", "Error: " ++ m.message]

end SemanticLayer.Cli
