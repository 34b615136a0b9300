import ForthMachine.Image
import ForthMachine.Text.Encoding
import ForthMachine.Yaml.Cursor

namespace ForthMachine

structure Settings where
  encoding : Octets := []
  trace : Bool := false
  prompt : Octets := .ofString "ok> "
  history : Octets := []
  startup : List Octets := []
  base : Word := Image.defaultBase
  deriving DecidableEq, Repr

namespace Settings

def blank : Settings := { prompt := [], base := 0 }

inductive Error where
  | unreadable (p : Yaml.Problem)
  /-- Some fields are not known, set twice or of the wrong type. -/
  | illTyped (complaints : List String)
  | unknownEncoding (name : Octets)
  | invalidBase (base : Word)
  deriving DecidableEq, Repr

def Error.message : Error → String
  | unreadable p => p.message
  | illTyped complaints =>
    "yaml: unmarshal errors:" ++ String.join (complaints.map ("\n  " ++ ·))
  | unknownEncoding name => Encoding.unknownMessage name
  | invalidBase base => "config: base " ++ Numeral.render base ++ " overlaps system variables"

def validate (s : Settings) : Except Error Settings :=
  if (Encoding.ofName? s.encoding).isNone then .error (.unknownEncoding s.encoding)
  else if Image.isValidBase s.base then .ok s
  else .error (.invalidBase s.base)

end Settings

end ForthMachine
