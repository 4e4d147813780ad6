import HttpEcho.Main
import HttpEcho.Shutdown
import HttpEcho.Proofs.HeadEnd
import HttpEcho.Proofs.Parsing
import HttpEcho.Proofs.ReadLoop
import HttpEcho.Proofs.ReadDemand
import HttpEcho.Proofs.Segmentation
import HttpEcho.Proofs.Trim
import HttpEcho.Proofs.Utf8
import HttpEcho.Proofs.AnnouncedLength
import HttpEcho.Proofs.Rendering
import HttpEcho.Proofs.Utf8Prefix
import HttpEcho.Proofs.JsonGrammar
import HttpEcho.Proofs.JsonNumber
import HttpEcho.Proofs.JsonString
import HttpEcho.Proofs.Entries
import HttpEcho.Proofs.JsonReader
import HttpEcho.Proofs.JsonLexemes
import HttpEcho.Proofs.JsonDocument
import HttpEcho.Proofs.JsonText
import HttpEcho.Proofs.BodyDecoding
import HttpEcho.Proofs.EchoReadBack
import HttpEcho.Proofs.WriteBack
import HttpEcho.Proofs.Routing
import HttpEcho.Proofs.AnswerStatus
import HttpEcho.Proofs.ResponseReading
import HttpEcho.Proofs.AnswerHead
import HttpEcho.Proofs.ServerMoves
import HttpEcho.Proofs.ServerRuns
import HttpEcho.Proofs.TargetEncoding
import HttpEcho.Proofs.MethodToken
import HttpEcho.Proofs.HeadLimit
import HttpEcho.Proofs.Words
import HttpEcho.Proofs.CutHead
import HttpEcho.Proofs.Truncation
import HttpEcho.Proofs.HeaderMap
import HttpEcho.Proofs.ResponseBuilding
import HttpEcho.Proofs.Dispatch
import HttpEcho.Proofs.HeaderLines
import HttpEcho.Proofs.QueryGroups
import HttpEcho.Proofs.TargetParts
import HttpEcho.Proofs.EchoedHeaders
import HttpEcho.Proofs.LineEndings
import HttpEcho.Proofs.ErrorAnswers
import HttpEcho.Proofs.AccessLog
import HttpEcho.Proofs.CommandLineOptions
import HttpEcho.Proofs.HandleFamilies
import HttpEcho.Proofs.Dates
import HttpEcho.Proofs.FixedWidth
import HttpEcho.Proofs.Timestamps
import HttpEcho.Proofs.ClientAddresses
