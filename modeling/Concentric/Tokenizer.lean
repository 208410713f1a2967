import Concentric.Document
import Concentric.Settings
import Concentric.Token
import Concentric.Tokenizer.Cache

/-! Tokenizers: documents in, block tokens out. The parser proper is given from outside; a
tokenizer sets it up once, by its settings, and keeps the streams of the documents used last. -/

namespace Concentric

structure ParserSetup where
  preset : Preset
  tables : Bool
  strikethrough : Bool
  deriving DecidableEq, Repr

/-- A block parser: what tokens a text has under a set-up. -/
abbrev BlockParser := ParserSetup → String → List Token

inductive ParserCall
  | make (preset : Preset)
  | enable (rule : String)
  | parse (text : String)
  deriving DecidableEq, Repr

namespace ParserSetup

def ofSettings (s : Settings) : ParserSetup :=
  ⟨s.markdownPreset, s.enableTables.truthy, s.enableStrikethrough.truthy⟩

def calls (p : ParserSetup) : List ParserCall :=
  .make p.preset :: ((if p.tables then [.enable "table"] else []) ++
    if p.strikethrough then [.enable "strikethrough"] else [])

end ParserSetup

/-- The tokens of one parse; streams of different parses have different numbers. -/
structure TokenStream where
  number : Nat
  tokens : List Token
  deriving Repr

structure Tokenizer where
  settings : Settings
  parses : Nat := 0
  cache : Cache TokenStream := []

namespace Tokenizer

def fresh (s : Settings) : Tokenizer := { settings := s }

/-- What a parse of a document gives: the tokenizer afterwards, the stream, and what was asked of
the parser, which is nothing if the stream was kept. -/
structure Parse where
  tokenizer : Tokenizer
  stream : TokenStream
  calls : List ParserCall

def parse (parser : BlockParser) (t : Tokenizer) (d : Document) : Parse :=
  let key := d.signature
  match t.cache.find? key with
  | some stream => ⟨{ t with cache := t.cache.use key stream }, stream, []⟩
  | none =>
    let setup := ParserSetup.ofSettings t.settings
    let stream : TokenStream := ⟨t.parses, parser setup d.text⟩
    let setUp := if t.parses = 0 then setup.calls else []
    ⟨{ t with
        parses := t.parses + 1
        cache := t.cache.remember t.settings.tokenCacheSize key stream },
      stream, setUp ++ [.parse d.text]⟩

def parseAll (parser : BlockParser) (t : Tokenizer) : List Document → List Parse
  | [] => []
  | d :: ds =>
    let p := t.parse parser d
    p :: parseAll parser p.tokenizer ds

end Tokenizer

end Concentric
