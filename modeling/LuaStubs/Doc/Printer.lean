import LuaStubs.Doc.Basic
import LuaStubs.Lua.Stub
import LuaStubs.Text.Lines

namespace LuaStubs.Doc

/-- The text of the comment above the declaration. -/
def remark (d : Doc) : Text :=
  Text.joinParts "\n\n"
    [Text.trimStart d.description, d.link.getD [],
      ['\n'].intercalate (d.attributes.map Attribute.text)]

def text (d : Doc) : Text :=
  Text.joinParts "\n" [Lua.comment [] d.remark, d.declarations.head?.getD []]

/-- Docs one after the other, with a blank line between them. -/
def texts (ds : List Doc) : Text :=
  Text.trimLineEnds (List.intercalate "\n\n" ((ds.filter (!·.isEmpty)).map text))

end LuaStubs.Doc
