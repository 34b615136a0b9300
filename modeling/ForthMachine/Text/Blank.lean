namespace ForthMachine.Text

/-- Space, tab, carriage return and line feed separate the words of a program. -/
def isBlank (c : Char) : Bool :=
  c = ' ' || c = '\n' || c = '\t' || c = '\r'

/-- White space of a listing: every character of a text that is a space of some width or ends a
line. -/
def isSpace (c : Char) : Bool :=
  let n := c.toNat
  (0x09 ≤ n && n ≤ 0x0d) || n = 0x20 || n = 0x85 || n = 0xa0 || n = 0x1680 ||
    (0x2000 ≤ n && n ≤ 0x200a) || n = 0x2028 || n = 0x2029 || n = 0x202f || n = 0x205f || n = 0x3000

/-- The maximal runs of characters that are not white space; `run` is the current one, backwards. -/
def fieldsAux (run : List Char) : List Char → List (List Char)
  | [] => if run.isEmpty then [] else [run.reverse]
  | c :: rest =>
    if isSpace c then
      if run.isEmpty then fieldsAux [] rest else run.reverse :: fieldsAux [] rest
    else fieldsAux (c :: run) rest

def fields (line : List Char) : List (List Char) := fieldsAux [] line

/-- The lines of a text, without their line feeds. There is one more line than there are line
feeds. -/
def lines : List Char → List (List Char)
  | [] => [[]]
  | c :: rest =>
    if c = '\n' then [] :: lines rest
    else match lines rest with
      | [] => [[c]]
      | line :: more => (c :: line) :: more

end ForthMachine.Text
