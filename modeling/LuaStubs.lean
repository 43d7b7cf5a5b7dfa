import LuaStubs.Main
import LuaStubs.Proofs.Comment.Composition
import LuaStubs.Proofs.Library.Conservation
import LuaStubs.Proofs.Library.Shape
import LuaStubs.Proofs.Token.Run
import LuaStubs.Proofs.Token.Segmentation
import LuaStubs.Proofs.Doc.Reading
import LuaStubs.Proofs.Library.Naming
import LuaStubs.Proofs.Library.Uniqueness
import LuaStubs.Proofs.Library.EnumFields
import LuaStubs.Proofs.Library.Descriptions
import LuaStubs.Proofs.Text.Tidy
import LuaStubs.Proofs.Library.Printing
import LuaStubs.Proofs.Comment.Inertness
import LuaStubs.Proofs.Comment.Positions
import LuaStubs.Proofs.Comment.Offsets
import LuaStubs.Proofs.Command.FileTree
import LuaStubs.Proofs.Command.Inputs
import LuaStubs.Proofs.Comment.Normality
import LuaStubs.Proofs.Command.Failures
import LuaStubs.Proofs.Command.Libraries
import LuaStubs.Proofs.TypeExpr.Extent
import LuaStubs.Proofs.Text.Surroundings
import LuaStubs.Proofs.TypeExpr.Ambiguity
import LuaStubs.Proofs.Doc.EnumSplit
import LuaStubs.Proofs.Doc.TableGroups
import LuaStubs.Proofs.FieldPath.Spelling
import LuaStubs.Proofs.Attribute.Names
import LuaStubs.Proofs.Attribute.Parts
import LuaStubs.Proofs.Attribute.FieldTypes
import LuaStubs.Proofs.Lua.Assignments
import LuaStubs.Proofs.Text.Associativity
import LuaStubs.Proofs.Text.Dedent
import LuaStubs.Proofs.Doc.Parameters
