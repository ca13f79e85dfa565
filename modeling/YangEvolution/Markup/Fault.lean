import YangEvolution.Text.Utf8
import YangEvolution.Text.Numeral

/-!
What can be wrong with a document, with the wording of each fault and the chain of its causes from
the outermost to the innermost.
-/

namespace YangEvolution.Markup

open Text

/-- Markup that the input ends in, or that is no markup. -/
inductive LexicalFault where
  | openTag
  | unknown
  | openComment
  | openCdata
  | openDoctype
  | openInstruction
  deriving DecidableEq

/-- Markup that does not fit what is around it. -/
inductive NestingFault where
  | unnamedDoctype
  | unopened (name : String)
  | mismatched (expected found : String)
  deriving DecidableEq

/-- Faults in the attributes of a tag, at positions in bytes from the tag's name on. -/
inductive AttributeFault where
  | noEquals (position : Nat)
  | noValue (position : Nat)
  | unquoted (position : Nat)
  | openQuote (position : Nat) (quote : Char)
  | duplicated (position previous : Nat)
  deriving DecidableEq

inductive NumberFault where
  | empty
  | digit
  | tooLarge
  deriving DecidableEq

/-- Faults in a reference to a character by its number. -/
inductive ReferenceFault where
  | sign
  | number (fault : NumberFault)
  | nul
  | codePoint (value : Nat)
  deriving DecidableEq

/-- Faults in the references of a text, at positions in bytes. -/
inductive EscapeFault where
  | openReference (start stop : Nat)
  | unknownEntity (start stop : Nat) (name : String)
  | reference (fault : ReferenceFault)
  deriving DecidableEq

inductive ReadFault where
  | lexical (fault : LexicalFault)
  | nesting (fault : NestingFault)
  | attributes (fault : AttributeFault)
  | encoding (fault : Utf8Fault)
  | escape (fault : EscapeFault)
  deriving DecidableEq

/-- Elements that do not make up one tree. -/
inductive ShapeFault where
  | strayClosing
  | unclosed
  | noRoot
  | manyRoots
  deriving DecidableEq

inductive DocumentFault where
  | reading (fault : ReadFault)
  | naming (fault : Utf8Fault)
  | shape (fault : ShapeFault)
  deriving DecidableEq

def LexicalFault.message : LexicalFault → String
  | .openTag => "tag not closed: `>` not found before end of input"
  | .unknown => "unknown or missed symbol in markup"
  | .openComment => "comment not closed: `-->` not found before end of input"
  | .openCdata => "CDATA not closed: `]]>` not found before end of input"
  | .openDoctype => "DOCTYPE not closed: `>` not found before end of input"
  | .openInstruction =>
    "processing instruction or xml declaration not closed: `?>` not found before end of input"

def NestingFault.message : NestingFault → String
  | .unnamedDoctype => "`<!DOCTYPE>` declaration does not contain a name of a document type"
  | .unopened name => "close tag `</" ++ name ++ ">` does not match any open tag"
  | .mismatched expected found =>
    "expected `</" ++ expected ++ ">`, but `</" ++ found ++ ">` was found"

def AttributeFault.message : AttributeFault → String
  | .noEquals p =>
    "position " ++ natText p ++ ": attribute key must be directly followed by `=` or space"
  | .noValue p => "position " ++ natText p ++ ": `=` must be followed by an attribute value"
  | .unquoted p =>
    "position " ++ natText p ++ ": attribute value must be enclosed in `\"` or `'`"
  | .openQuote p quote =>
    "position " ++ natText p ++ ": missing closing quote `" ++ String.singleton quote ++
      "` in attribute value"
  | .duplicated p previous =>
    "position " ++ natText p ++ ": duplicated attribute, previous declaration at position " ++
      natText previous

def NumberFault.message : NumberFault → String
  | .empty => "cannot parse integer from empty string"
  | .digit => "invalid digit found in string"
  | .tooLarge => "number too large to fit in target type"

namespace ReferenceFault

def message : ReferenceFault → String
  | .sign => "unexpected number sign"
  | .number fault => fault.message
  | .nul => "0x0 character is not permitted in XML"
  | .codePoint value => "`" ++ natText value ++ "` is not a valid codepoint"

def causes : ReferenceFault → List String
  | .number fault => [fault.message]
  | _ => []

end ReferenceFault

namespace EscapeFault

def message : EscapeFault → String
  | .openReference start stop =>
    "Error while escaping character at range " ++ natText start ++ ".." ++ natText stop ++
      ": Cannot find ';' after '&'"
  | .unknownEntity start stop name =>
    "at " ++ natText start ++ ".." ++ natText stop ++ ": unrecognized entity `" ++ name ++ "`"
  | .reference fault => "invalid character reference: " ++ fault.message

def causes : EscapeFault → List String
  | .reference fault => fault.message :: fault.causes
  | _ => []

end EscapeFault

namespace ReadFault

def message : ReadFault → String
  | .lexical fault => "syntax error: " ++ fault.message
  | .nesting fault => "ill-formed document: " ++ fault.message
  | .attributes fault => "error while parsing attribute: " ++ fault.message
  | .encoding fault => "Malformed UTF-8 input: " ++ fault.message
  | .escape fault => fault.message

def causes : ReadFault → List String
  | .lexical fault => [fault.message]
  | .nesting fault => [fault.message]
  | .attributes fault => [fault.message]
  | .encoding fault => [fault.message]
  | .escape fault => fault.message :: fault.causes

end ReadFault

def ShapeFault.message : ShapeFault → String
  | .strayClosing => "encountered closing tag without open tag"
  | .unclosed => "unclosed element(s) at end of document"
  | .noRoot => "no root element found"
  | .manyRoots => "multiple top-level elements found"

namespace DocumentFault

def message : DocumentFault → String
  | .reading fault => "failed to parse XML: " ++ fault.message
  | .naming fault => "invalid UTF-8 while parsing XML: " ++ fault.message
  | .shape fault => "malformed XML: " ++ fault.message

def causes : DocumentFault → List String
  | .reading fault => fault.message :: fault.causes
  | .naming fault => [fault.message]
  | .shape _ => []

end DocumentFault

end YangEvolution.Markup
