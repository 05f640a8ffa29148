import LiteralForm.Json.Decode
import LiteralForm.Json.Encode
import LiteralForm.Options.Document
import LiteralForm.Proofs.Enum.Literal
import LiteralForm.Proofs.Text.Token
import LiteralForm.Rendering
import LiteralForm.Text.Unescape
import LiteralForm.Value.Equality
import LiteralForm.Proofs.Enum.Bits
import LiteralForm.Proofs.Enum.Cover
import LiteralForm.Proofs.Float.Nearest
import LiteralForm.Proofs.Float.Shortest
import LiteralForm.Proofs.Digits
import LiteralForm.Proofs.Numeral
import LiteralForm.Proofs.Float.Literal
import LiteralForm.Proofs.Decimal.Text
import LiteralForm.Proofs.Integer.Literal
import LiteralForm.Proofs.Rendering.Injective
import LiteralForm.Proofs.Decimal.Obtained
import LiteralForm.Proofs.Text.Run
import LiteralForm.Proofs.Text.Unescape
import LiteralForm.Proofs.CSharp.Naming
import LiteralForm.Proofs.CSharp.NameText
import LiteralForm.Proofs.CSharp.TypeName
import LiteralForm.Proofs.Enum.Injective
import LiteralForm.Proofs.Rendering.Events
import LiteralForm.Proofs.Rendering.Namespaces
import LiteralForm.Proofs.CSharp.ReservedWords
import LiteralForm.Proofs.Json.Scalar
import LiteralForm.Proofs.Json.Document
import LiteralForm.Proofs.Json.Fields
import LiteralForm.Proofs.Json.RoundTrip
import LiteralForm.Proofs.Json.Content
import LiteralForm.Proofs.Json.Kept
import LiteralForm.Proofs.Json.MemberOrder
import LiteralForm.Proofs.Enum.Constants
import LiteralForm.Proofs.Enum.Building
import LiteralForm.Proofs.Enum.Canonical
import LiteralForm.Proofs.Text.Grammar
import LiteralForm.Proofs.Decimal.Grammar
import LiteralForm.Proofs.Decimal.Canonical
import LiteralForm.Proofs.Enum.NamedBits
import LiteralForm.Proofs.Enum.Lookup
import LiteralForm.Proofs.Enum.Reordering
import LiteralForm.Proofs.Enum.Extension
import LiteralForm.Proofs.CSharp.IntegerConstant
import LiteralForm.Proofs.Float.Minimal
import LiteralForm.Proofs.Float.Widths
import LiteralForm.Proofs.Rendering.Defaults
import LiteralForm.Proofs.Toml.Line
import LiteralForm.Proofs.Type.Levels
import LiteralForm.Proofs.Toml.Building
import LiteralForm.Proofs.Options.Schema
import LiteralForm.Proofs.Options.RoundTrip
import LiteralForm.Proofs.Word.Checked
import LiteralForm.Proofs.Word.Enum
import LiteralForm.Proofs.Word.Decimal
import LiteralForm.Proofs.Word.Escape
import LiteralForm.Proofs.Word.Faultless
import LiteralForm.Proofs.Enum.Representative
import LiteralForm.Proofs.Text.Verbatim
