import LuaStubs.Doc.Declarations
import LuaStubs.Doc.Enums
import LuaStubs.Doc.Fields
import LuaStubs.Doc.Printer
import LuaStubs.Doc.Tables

namespace LuaStubs.Library

/-- The address of the lines that a doc was read from. -/
def sourceUrl (repo path : Text) (start stop : Position) : Text :=
  Text.dropEndWhile (· == '/') repo ++ "/" ++
  (Text.replaceChar '\\' '/' path).dropWhile (· == '/') ++
  "#L" ++ Text.ofNat start.line ++ "-L" ++ Text.ofNat stop.line

def sourceLink (repo path : Text) (start stop : Position) : Text :=
  "[<a href=\"" ++ sourceUrl repo path start stop ++ "\" target=\"_blank\">source</a>]"

def linkDoc (repo : Option Text) (d : Doc) : Doc :=
  match repo, d.path with
  | some repo, some path => { d with link := some (sourceLink repo path d.start d.stop) }
  | _, _ => d

/-- Docs with their own tables, before those of the same table are brought together. -/
def tabled (ds : List Doc) : List Doc := ds.map fun d => d.globalsAsFields.withTable

/-- Docs brought together by table and enum. -/
def merged (ds : List Doc) : List Doc :=
  (Doc.mergeByTable (Doc.foldIntoEnums (tabled ds))).map Doc.mergeEnums

/-- Docs ready for their declarations. -/
def prepared (ds : List Doc) : List Doc := (merged ds).map Doc.assignFields

/-- The docs of a library, with declarations and links to the sources. -/
def process (repo : Option Text) (ds : List Doc) : List Doc :=
  (((prepared ds).map Doc.declare).filter (!·.isEmpty)).map (linkDoc repo)

/-- The warnings about docs with more than one declaration. -/
def conflicts (ds : List Doc) : List Warning := (prepared ds).filterMap Doc.conflict?

/-- All that there is to tell about processing some docs. -/
def events (repo : Option Text) (ds : List Doc) : List Event :=
  (Doc.foldNotes (tabled ds)).map .note ++
  (Doc.mergeNotes [] (Doc.foldIntoEnums (tabled ds))).map .note ++
  (conflicts ds).map .warning ++
  [.note (.docsProcessed ds.length (process repo ds).length)]

/-- The name and version of the tool, as every library shows them. -/
def generator : Text := "lua-doc-extractor 0.1.0"

/-- Where the declarations come from. -/
def sourceLines : List Text → List Text
  | [] => []
  | [source] => ["---Source: " ++ source, "---"]
  | sources =>
    "---Sources:".toList :: sources.map (fun source => "--- - " ++ source) ++ ["---".toList]

def headerLines (sources : List Text) : List Text :=
  ["---!!! DO NOT MANUALLY EDIT THIS FILE !!!".toList, "---Generated by " ++ generator,
    "---".toList] ++ sourceLines sources ++ ["---@meta".toList]

/-- Puts the header of a generated file in front of some declarations. -/
def withHeader (sources : List Text) (body : Text) : Text :=
  Text.trimLineEnds (['\n'].intercalate (headerLines sources) ++ ['\n'] ++
    (if body = [] then [] else '\n' :: body ++ ['\n']))

/-- The whole text of a library. -/
def render (repo : Option Text) (sources : List Text) (ds : List Doc) : Text :=
  withHeader sources (Doc.texts (process repo ds))

end LuaStubs.Library
