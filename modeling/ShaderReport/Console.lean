/-!
# The console

Lines are printed one after another to a console, which may refuse any of them. What is printed
stays printed: a command stops at the first line that is refused.
-/

namespace ShaderReport

/-- Why the system did not take a line. -/
structure ConsoleError where
  message : String
  deriving DecidableEq, Repr

/-- Where lines are printed. Whether a line is taken may depend on the lines taken before it. -/
structure Console where
  refusal : List String → String → Option ConsoleError

namespace Console

/-- The console that takes every line. -/
def unfailing : Console :=
  ⟨fun _ _ => none⟩

/-- The console that takes the given number of lines, and no more. -/
def upTo (limit : Nat) (cause : ConsoleError) : Console :=
  ⟨fun printed _ => if printed.length < limit then none else some cause⟩

/-- Prints a line after others. -/
def print (c : Console) (printed : List String) (line : String) :
    Except ConsoleError (List String) :=
  match c.refusal printed line with
  | none => .ok (printed ++ [line])
  | some cause => .error cause

/-- Prints lines in order, up to the first that is refused. Returns all that was printed. -/
def printAll (c : Console) (printed : List String) :
    List String → List String × Except ConsoleError Unit
  | [] => (printed, .ok ())
  | line :: lines =>
    match c.print printed line with
    | .error cause => (printed, .error cause)
    | .ok printed => c.printAll printed lines

end Console

end ShaderReport
