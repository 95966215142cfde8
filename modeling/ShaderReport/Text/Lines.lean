/-!
# Lines

A text is cut into lines at every line feed. One carriage return right before a line feed belongs
to the line break; a carriage return anywhere else is an ordinary character. A text that ends with
a line feed has no empty line after it.
-/

namespace ShaderReport.Text

/-- The lines of a text. -/
def lines : List Char → List (List Char)
  | [] => []
  | c :: cs =>
    if c = '\n' then [] :: lines cs
    else if c = '\r' ∧ cs.head? = some '\n' then lines cs
    else match lines cs with
      | [] => [[c]]
      | l :: ls => (c :: l) :: ls

end ShaderReport.Text
