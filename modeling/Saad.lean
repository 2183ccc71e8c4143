import Saad.ConstExpr.WantedRight
import Saad.Dbms.ConditionsRight
import Saad.Dbms.GenerateRight
import Saad.Dbms.PoolSound
import Saad.Dbms.Query
import Saad.Defers.Sound
import Saad.Html.Escaping
import Saad.Html.Integers
import Saad.Html.RenderEnds
import Saad.Http.ClientRequests
import Saad.Http.CookiesRight
import Saad.Http.Router
import Saad.Http.ServingSound
import Saad.Ir.DefinedReads
import Saad.Json.DecodeDefaults
import Saad.Json.DecodeIntegers
import Saad.Json.DecodeSizes
import Saad.Json.NamesRight
import Saad.Json.StringsRight
import Saad.Lexer.NumbersRight
import Saad.Lexer.QuotedRight
import Saad.Llvm.EmitDivide
import Saad.Llvm.FunctionRefines
import Saad.Lowering.RangeFor
import Saad.Lsp.Columns
import Saad.Lsp.Rpc
import Saad.Lsp.Uris
import Saad.Parser.IfReplaces
import Saad.Parser.NamespaceReads
import Saad.Parser.RecoveryRight
import Saad.Parser.TypesRight
import Saad.Regalloc.CallClobber
import Saad.Returns.Sound
import Saad.Runtime.CompareRight
import Saad.Std.ArenaRight
import Saad.Std.Base64RoundTrip
import Saad.Std.BuilderRight
import Saad.Std.BytesQueue
import Saad.Std.Durations
import Saad.Std.Random
import Saad.Std.Sprintf
import Saad.Std.TimeShown
import Saad.Typer.CallArgumentsRight
import Saad.Typer.Embedding
import Saad.Typer.EnumValues
import Saad.Typer.JumpsSound
import Saad.Typer.StructLiterals
import Saad.X64.EncModrm
import Saad.X64.FrameAreas
import Saad.X64.GlobalDataRight
import Saad.X64.ParallelMoveRight
