import SemanticLayer.Text.Similarity
import SemanticLayer.Value.Show

/-!
# Command lines

A command has options, which start with two dashes, and at most one argument.  What follows a lone
pair of dashes is not read as options.  The first word that is not an option names the command.
-/

namespace SemanticLayer.Cli

structure Parameter where
  name : String
  help : String
  takesText : Bool := true
  deriving Repr, Inhabited

def Parameter.option (p : Parameter) : String := "--" ++ p.name

structure Command where
  name : String
  help : List String
  parameters : List Parameter
  argument : Option String := none
  deriving Repr, Inhabited

inductive Mistake where
  | noSuchOption (option : String) (similar : List String)
  | textMissing (option : String)
  | takesNoText (option : String)
  | argumentMissing (argument : String)
  | tooMany (arguments : List String)
  | noSuchCommand (name : String)
  | commandMissing
  deriving DecidableEq, Repr, Inhabited

def Mistake.message : Mistake → String
  | .noSuchOption option similar =>
    let hint := match similar with
      | [] => ""
      | [one] => " Did you mean " ++ one ++ "?"
      | many => " (Possible options: "
        ++ Text.join ", " (many.mergeSort fun a b => decide (a ≤ b)) ++ ")"
    "No such option: " ++ option ++ hint
  | .textMissing option => "Option " ++ Text.quoted option ++ " requires an argument."
  | .takesNoText option => "Option " ++ Text.quoted option ++ " does not take a value."
  | .argumentMissing argument => "Missing argument " ++ Text.quoted argument ++ "."
  | .tooMany arguments =>
    "Got unexpected extra argument" ++ (if arguments.length = 1 then "" else "s") ++ " ("
      ++ Text.join " " arguments ++ ")"
  | .noSuchCommand name => "No such command " ++ Text.quoted name ++ "."
  | .commandMissing => "Missing command."

structure Reading where
  texts : List (String × String) := []
  flags : List String := []
  arguments : List String := []
  deriving DecidableEq, Repr, Inhabited

namespace Reading

def text? (r : Reading) (name : String) : Option String :=
  (r.texts.reverse.find? (·.1 == name)).map (·.2)

def withText (r : Reading) (name text : String) : Reading :=
  { r with texts := r.texts ++ [(name, text)] }

def withFlag (r : Reading) (name : String) : Reading := { r with flags := r.flags ++ [name] }

end Reading

def isOption (word : String) : Bool := Text.startsWith word "-" && word != "-"

def splitOption (word : String) : String × Option String :=
  match Text.split word "=" with
  | option :: text :: rest => (option, some (Text.join "=" (text :: rest)))
  | _ => (word, none)

def unknown (parameters : List Parameter) (option word : String) : Mistake :=
  if Text.startsWith word "--" then
    .noSuchOption option (Text.similarTo option (parameters.map Parameter.option))
  else .noSuchOption (Text.take word 2) []

def read (parameters : List Parameter) (anywhere : Bool) :
    Reading → List String → Except Mistake Reading
  | r, [] => .ok r
  | r, word :: rest =>
    if word == "--" then .ok { r with arguments := r.arguments ++ rest }
    else if !isOption word then
      let r := { r with arguments := r.arguments ++ [word] }
      if anywhere then read parameters anywhere r rest
      else .ok { r with arguments := r.arguments ++ rest }
    else
      let (option, text) := splitOption word
      match parameters.find? (·.option == option), text, rest with
      | none, _, _ => .error (unknown parameters option word)
      | some p, some text, rest =>
        if p.takesText then read parameters anywhere (r.withText p.name text) rest
        else .error (.takesNoText option)
      | some p, none, [] =>
        if p.takesText then .error (.textMissing option) else .ok (r.withFlag p.name)
      | some p, none, next :: rest =>
        if p.takesText then read parameters anywhere (r.withText p.name next) rest
        else read parameters anywhere (r.withFlag p.name) (next :: rest)
termination_by _ words => words.length

def Command.check (c : Command) (r : Reading) : Except Mistake Unit :=
  match c.argument, r.arguments with
  | some name, [] => .error (.argumentMissing name)
  | some _, _ :: [] => .ok ()
  | some _, _ :: more => .error (.tooMany more)
  | none, [] => .ok ()
  | none, more => .error (.tooMany more)

end SemanticLayer.Cli
