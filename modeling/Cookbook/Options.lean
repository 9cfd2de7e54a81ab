import Cookbook.Decimal

/-!
# Cookbook.Options

What a command line asks for.  Arguments are read from left to right; of an
option that is given twice the last value holds.
-/

namespace Cookbook

/-- What a command line asks for. -/
structure Options where
  recipePath : Text := []
  inputPath : Text := []
  seed : Option UInt32 := none
  maxDepth : UInt32 := 1000
  dump : Bool := false
  help : Bool := false
deriving DecidableEq

/-- The reasons for refusing a command line. -/
inductive OptionError where
  | needsValue (option : Text)
  | notANumber (option value : Text)
  | unknownOption (option : Text)
  | secondRecipe
  | noRecipe
deriving DecidableEq

/-- The wording of a reason. -/
def OptionError.message : OptionError → Text
  | needsValue option => option ++ " needs a value"
  | notANumber option value => option ++ " expects a number, not " ++ value.quoted
  | unknownOption option => "Unknown option " ++ option
  | secondRecipe => "Only one recipe can be cooked at a time"
  | noRecipe => "No recipe given"

namespace Options

/-- How the program is used. -/
def usage : Text :=
  "usage: chef [--seed N] [--max-depth N] [--dump] [--input FILE] RECIPE\n" ++
  "  --seed N       seed the shuffle used by 'Mix well'\n" ++
  "  --max-depth N  stop after N nested 'Serve with', 0 for no limit (default 1000)\n" ++
  "  --dump         print the program before cooking it\n" ++
  "  --input FILE   take refrigerator values from FILE instead of stdin\n"

/-- The value of a numeric option: white space, a sign and digits.  A negative
number counts as its remainder modulo 2^64, but a text that begins with the
minus sign is refused. -/
def number? (text : Text) : Option UInt32 :=
  if text.head? = some 45 then none
  else
    let (negative, digits) := Decimal.splitSign (text.dropWhile Decimal.isSpace)
    match Decimal.nat? digits with
    | none => none
    | some magnitude =>
      let n := if negative then (UInt64.size - magnitude) % UInt64.size else magnitude
      if magnitude < UInt64.size ∧ n < UInt32.size then some (UInt32.ofNat n) else none

/-- The value of a numeric option, which has to be a number. -/
def number (option value : Text) : Except OptionError UInt32 :=
  match number? value with
  | some n => .ok n
  | none => .error (.notANumber option value)

/-- Whether an argument is an option that takes a value. -/
def takesValue (arg : Text) : Bool :=
  arg = Text.ofString "--input" || arg = Text.ofString "--seed" ||
    arg = Text.ofString "--max-depth"

/-- Notes down an option with its value. -/
def withValue (o : Options) (option value : Text) : Except OptionError Options :=
  if option = "--input" then .ok { o with inputPath := value }
  else if option = "--seed" then (number option value).map fun n => { o with seed := some n }
  else (number option value).map fun n => { o with maxDepth := n }

/-- Notes down an argument that takes no value.  Only a recipe whose name is
not empty keeps another one out. -/
def withArgument (o : Options) (arg : Text) : Except OptionError Options :=
  if arg = "--help" ∨ arg = "-h" then .ok { o with help := true }
  else if arg = "--dump" then .ok { o with dump := true }
  else if arg.head? = some 45 ∧ 1 < arg.length then .error (.unknownOption arg)
  else if o.recipePath.isEmpty then .ok { o with recipePath := arg }
  else .error .secondRecipe

/-- Notes down arguments from left to right. -/
def withArguments (o : Options) : List Text → Except OptionError Options
  | [] => .ok o
  | arg :: rest =>
    if takesValue arg then
      match rest with
      | [] => .error (.needsValue arg)
      | value :: rest' =>
        match o.withValue arg value with
        | .error e => .error e
        | .ok o' => o'.withArguments rest'
    else
      match o.withArgument arg with
      | .error e => .error e
      | .ok o' => o'.withArguments rest

/-- What a command line asks for; unless that is help, a recipe is needed. -/
def parse (args : List Text) : Except OptionError Options :=
  match ({} : Options).withArguments args with
  | .error e => .error e
  | .ok o => if o.recipePath.isEmpty && !o.help then .error .noRecipe else .ok o

end Options

end Cookbook
