import Parson.Core.Bytes
import Parson.Core.Double
import Parson.Core.Strtod
import Parson.Core.Value
import Parson.Core.Object
import Parson.Core.Array
import Parson.Core.Serializer
import Parson.Core.DotPath
import Parson.Core.Parser
import Parson.Core.Comments
import Parson.Core.Tree
import Parson.Theory.ObjectModel
import Parson.Theory.ArrayModel
import Parson.Theory.Capacity
import Parson.Theory.Store
import Parson.Theory.SerializeSize
import Parson.Theory.DotPath
import Parson.Theory.ParseResult
import Parson.Theory.Grammar
import Parson.Theory.Tokens
import Parson.Theory.Completeness
import Parson.Theory.Limits
import Parson.Theory.RoundTrip
import Parson.Theory.Comments
import Parson.Theory.CommentedText
import Parson.Theory.Stored
import Parson.Theory.StrtodStop
import Parson.Theory.Soundness
import Parson.Theory.DeepCopy
import Parson.Theory.Compare
import Parson.Theory.TreeStore
