import YangEvolution.Schema.Revision

/-!
Qualified names: a local name together with the namespace of its module and the module's revision.
-/

namespace YangEvolution

open Text

structure QName where
  uri : String
  revision : Option Revision := none
  localName : String
  deriving DecidableEq

namespace QName

def text (q : QName) : String :=
  match q.revision with
  | some r => "(" ++ q.uri ++ "?revision=" ++ r.text ++ ")" ++ q.localName
  | none => "(" ++ q.uri ++ ")" ++ q.localName

def toJson (q : QName) : Json :=
  .obj [("namespace", .str q.uri),
    ("revision", q.revision.elim .null Revision.toJson),
    ("local_name", .str q.localName)]

end QName

end YangEvolution
