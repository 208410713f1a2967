import Concentric.Report
import Concentric.Number.Literal

/-! Failures: why a call has no answer. A report is meant for the host. A refusal says that a
value of the right kind is not acceptable; the other failures say what was met in its place. -/

namespace Concentric

/-- Why a value of the right kind is refused. -/
inductive Refusal
  | malformedLiteral (text : String)
  | literalTooLong (digits : Nat)
  | unprintable
  | notANumber
  | depthCapBelowOne
  | negativeCacheSize
  | unknownPreset (preset : Value)
  | unknownLevel (level : Value)
  | overrideWithoutValue (entry : String)
  | overrideWithoutName
  | unknownSetting (name : String)
  | zeroStep
  | absentCoordinate
  | pathWithoutName (path : String)
  | pairLength (index length : Nat)
  | nulInEncoding
  | raised (text : String)
  deriving Repr

def Refusal.message : Refusal → String
  | malformedLiteral s => "invalid literal for int() with base 10: " ++
      String.ofList ((Quoted.text s).toList.take 200)
  | literalTooLong n => "Exceeds the limit (" ++ Digits.text Literal.digitLimit ++
      " digits) for integer string conversion: value has " ++ Digits.text n ++
      " digits; use sys.set_int_max_str_digits() to increase the limit"
  | unprintable => "Exceeds the limit (" ++ Digits.text Literal.digitLimit ++
      " digits) for integer string conversion; " ++
      "use sys.set_int_max_str_digits() to increase the limit"
  | notANumber => "cannot convert float NaN to integer"
  | depthCapBelowOne => "list_depth_cap must be at least 1"
  | negativeCacheSize => "token_cache_size cannot be negative"
  | unknownPreset v => "Unknown markdown preset: " ++ v.display
  | unknownLevel v => "Unknown log level: " ++ v.display
  | overrideWithoutValue e => "Override '" ++ e ++ "' must use KEY=VALUE syntax."
  | overrideWithoutName => "Override is missing a field name."
  | unknownSetting k => "Unknown setting '" ++ k ++ "'."
  | zeroStep => "slice step cannot be zero"
  | absentCoordinate => ""
  | pathWithoutName p => "PosixPath(" ++ Quoted.text p ++ ") has an empty name"
  | pairLength i n => "dictionary update sequence element #" ++ Digits.text i ++ " has length " ++
      Digits.text n ++ "; 2 is required"
  | nulInEncoding => "embedded null character"
  | raised s => s

inductive Outside
  | pair
  | emptyList
  deriving DecidableEq, Repr

def Outside.message : Outside → String
  | pair => "Position index out of range"
  | emptyList => "list index out of range"

/-- What a value of the wrong kind was met in. -/
inductive Mismatch
  | comparison (left right : String)
  | lookup (kind : String)
  | use
  deriving DecidableEq, Repr

def Mismatch.message : Mismatch → String
  | comparison l r => "'<' not supported between instances of '" ++ l ++ "' and '" ++ r ++ "'"
  | lookup k => "unhashable type: '" ++ k ++ "'"
  | use => "unsupported operand"

structure Undecodable where
  codec : String
  octets : List UInt8
  start : Nat
  stop : Nat
  reason : String
  deriving Repr

def Undecodable.message (u : Undecodable) : String :=
  let place :=
    if u.stop = u.start + 1 then
      "byte 0x" ++ String.ofList (Quoted.hex 2 (u.octets.getD u.start 0).toNat) ++
        " in position " ++ Digits.text u.start
    else "bytes in position " ++ Digits.text u.start ++ "-" ++ Digits.text (u.stop - 1 : Int)
  "'" ++ u.codec ++ "' codec can't decode " ++ place ++ ": " ++ u.reason

inductive FileFault
  | notFound
  | isDirectory
  | notDirectory
  | taken
  | denied
  | busy
  | nameTooLong
  | nulInName
  | tooManyLinks
  | noRoom
  deriving DecidableEq, Repr

def FileFault.message : FileFault → String
  | notFound => "no such file or directory"
  | isDirectory => "is a directory"
  | notDirectory => "is not a directory"
  | taken => "is there already"
  | denied => "not permitted"
  | busy => "in use"
  | nameTooLong => "name too long"
  | nulInName => "embedded null byte"
  | tooManyLinks => "too many links"
  | noRoom => "no room left"

inductive Failure
  | report (r : Report)
  | refused (why : Refusal)
  | outside (what : Outside)
  | mismatch (what : Mismatch)
  | undecodable (u : Undecodable)
  | missingAttribute
  | missingKey
  | infinite
  | unknownCodec (name : String)
  | file (fault : FileFault)
  | nestedTooDeep
  | homeless
  | unencodable
  | interrupted (name : String)
  deriving Repr

namespace Failure

/-- The value was of the right kind, but not acceptable; undecodable octets, texts without octets and
names that no file can have count here too. -/
def isRefusal : Failure → Bool
  | refused _ | undecodable _ | unencodable | file .nulInName => true
  | _ => false

def message : Failure → String
  | report r => r.text
  | refused why => why.message
  | outside what => what.message
  | mismatch what => what.message
  | undecodable u => u.message
  | missingAttribute => "attribute missing"
  | missingKey => "key missing"
  | infinite => "infinite number"
  | unknownCodec name => "unknown encoding: " ++ name
  | file fault => fault.message
  | nestedTooDeep => "nested too deep"
  | homeless => "home directory not known"
  | unencodable => "surrogates not allowed"
  | interrupted name => name

/-- The failure where something is to be done with a value that only a text can do. A thing may have
an attribute of that name, but it is not what is needed. -/
def notText (ability : String) (v : Value) : Failure :=
  match v.attribute? ability with
  | some _ => mismatch .use
  | none => missingAttribute

def ofLiteral (text : String) : LiteralFault → Failure
  | .malformed => refused (.malformedLiteral text)
  | .tooLong n => refused (.literalTooLong n)

/-! ## Answers one after another -/

section

variable {ε α β : Type} {x : Except ε α} {f : α → Except ε β} {a : α} {b : β} {e : ε}

theorem ok_bind (a : α) (f : α → Except ε β) : (Except.ok a >>= f) = f a := rfl

theorem bind_eq_ok : (x >>= f) = .ok b ↔ ∃ a, x = .ok a ∧ f a = .ok b := by
  constructor
  · intro h
    cases x with
    | error e => cases h
    | ok a => exact ⟨a, rfl, h⟩
  · rintro ⟨a, rfl, h⟩
    exact h

theorem bind_eq_error : (x >>= f) = .error e ↔ x = .error e ∨ ∃ a, x = .ok a ∧ f a = .error e := by
  constructor
  · intro h
    cases x with
    | error e' => exact Or.inl (congrArg _ (Except.error.inj h))
    | ok a => exact Or.inr ⟨a, rfl, h⟩
  · rintro (rfl | ⟨a, rfl, h⟩)
    · rfl
    · exact h

theorem eq_ok_of_toOption (h : x.toOption = some a) : x = .ok a := by
  cases x with
  | error f => cases h
  | ok b => exact congrArg Except.ok (Option.some.inj h)

end

end Failure

end Concentric
