/-! The name of the program, and the names that are made from it. -/

namespace Concentric.Program

def name : String := "mdselect"

/-- The directory for the program's files under the home directory. -/
def directory : String := "." ++ name

/-- What the names of the program's environment variables begin with. -/
def envStart : String := "MDSELECT_"

def envVariable (suffix : String) : String := envStart ++ suffix

def logger (part : String) : String := name ++ "." ++ part

end Concentric.Program
