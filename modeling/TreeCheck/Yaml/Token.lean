import TreeCheck.Yaml.Property

/-!
# Tokens

* `TokenKind` — what a token says: an indicator, a scalar, a property of a node, a directive, or the
  start or end of a block collection, which the indentation tells;
* `Token` — a token with its place.
-/

namespace TreeCheck.Yaml

/-- What a token says. -/
inductive TokenKind where
  | streamStart
  | streamEnd
  | directive (d : Directive)
  | documentStart
  | documentEnd
  | blockSequenceStart
  | blockMappingStart
  | blockEnd
  | flowSequenceStart
  | flowSequenceEnd
  | flowMappingStart
  | flowMappingEnd
  | blockEntry
  | flowEntry
  | key
  | value
  | anchor (name : String)
  | reference (name : String)
  | tag (handle suffix : String)
  | scalar (text : String) (isPlain : Bool)
deriving Repr, DecidableEq, Inhabited

/-- A token with its place. -/
structure Token where
  kind : TokenKind
  start : Mark
  stop : Mark
deriving Repr, Inhabited

/-- Whether a token says something about the document that follows it. -/
def TokenKind.isDirective : TokenKind → Bool
  | .directive _ => true
  | _ => false

def TokenKind.endsDocument (k : TokenKind) : Bool :=
  k.isDirective || [.documentStart, .documentEnd, .streamEnd].contains k

end TreeCheck.Yaml
