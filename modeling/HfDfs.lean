import HfDfs.Library.Procedure
import HfDfs.Library.Interleaving
import HfDfs.Library.Deviation
import HfDfs.Library.Events
import HfDfs.Library.Environment
import HfDfs.Library.ScoredSet
import HfDfs.Library.Tally
import HfDfs.Library.Allocation
import HfDfs.Library.Search
import HfDfs.Library.Replacement
import HfDfs.Library.QuotedText
import HfDfs.Library.Feistel
import HfDfs.Library.BitWiring
import HfDfs.Library.Chunks
import HfDfs.Library.Absorption
import HfDfs.Library.Execution
import HfDfs.Library.Binary64
import HfDfs.Library.Reading
import HfDfs.Library.GrowingText
import HfDfs.Library.JsonText
import HfDfs.CString
import HfDfs.Decimal
import HfDfs.Util
import HfDfs.Memory
import HfDfs.UtilMemory
import HfDfs.Base64
import HfDfs.Redis.Zlexcount
import HfDfs.Redis.Server
import HfDfs.Redis.Public
import HfDfs.Redis.Hmset
import HfDfs.Mysql.Tables
import HfDfs.Mysql.SqlText
import HfDfs.Store
import HfDfs.StatementTexts
import HfDfs.Mysql.TextServer
import HfDfs.Lifetimes
import HfDfs.Cgi.Records
import HfDfs.Cgi.Register
import HfDfs.Cgi.Post
import HfDfs.CJson.Parser
import HfDfs.CJson.Printer
import HfDfs.CJson.PrintBuffer
import HfDfs.Cgi.Http
import HfDfs.Cgi.Login
import HfDfs.Cgi.AcceptLoop
import HfDfs.Cgi.Upload
import HfDfs.Cgi.UploadBody
import HfDfs.Cgi.UploadStorage
import HfDfs.Cgi.Md5
import HfDfs.Cgi.DealFile
import HfDfs.Cgi.DealShareFile
import HfDfs.Cgi.ShareFiles
import HfDfs.Cgi.MyFiles
import HfDfs.Des.Cipher
import HfDfs.Des.Messages
import HfDfs.Des.Fips
import HfDfs.Des.Words
import HfDfs.Des.Rounds
import HfDfs.Des.KeySchedule
import HfDfs.Md5.Transform
import HfDfs.Md5.Context
import HfDfs.Md5.Rfc1321
import HfDfs.Md5.Rounds
import HfDfs.Requests
import HfDfs.Cgi.Commands
import HfDfs.Cgi.Token
import HfDfs.Cgi.Turns
import HfDfs.Cgi.Wire
import HfDfs.Properties.JsonReading
import HfDfs.Properties.JsonSafety
import HfDfs.Properties.JsonPrinting
import HfDfs.Properties.JsonBuffer
import HfDfs.Properties.Bodies
import HfDfs.Properties.SqlMeaning
import HfDfs.Properties.StatementLengths
import HfDfs.Properties.Wording
import HfDfs.Properties.Files
import HfDfs.Properties.Deletion
import HfDfs.Properties.RefCount
import HfDfs.Properties.CrashSafety
import HfDfs.Properties.FileInterleaving
import HfDfs.Properties.ShareInterleaving
import HfDfs.Properties.Sessions
import HfDfs.Properties.LostUpdate
import HfDfs.Properties.LoginSound
import HfDfs.Properties.RequestLeaks
import HfDfs.Properties.Isolation
import HfDfs.Properties.Sharing
import HfDfs.Properties.Emptying
import HfDfs.Properties.ShareCache
import HfDfs.Properties.Ranking
import HfDfs.Properties.SuccessCode
import HfDfs.Properties.Refusal
import HfDfs.Properties.TokenGate
import HfDfs.Properties.UserFiles
import HfDfs.Properties.SharedOnce
import HfDfs.Properties.Trimming
import HfDfs.Properties.UploadFormat
import HfDfs.Properties.UploadAcceptance
import HfDfs.Properties.UploadFinish
import HfDfs.Properties.ReservedNames
import HfDfs.Properties.Undoing
import HfDfs.Properties.Presence
import HfDfs.Properties.MarkCollision
import HfDfs.Properties.RankingRebuild
import HfDfs.Properties.Decoders
import HfDfs.Properties.DesStandard
import HfDfs.Properties.DesRoundTrip
import HfDfs.Properties.Md5Streaming
import HfDfs.Properties.Base64RoundTrip
import HfDfs.Properties.Tokens
import HfDfs.Properties.QueryLookup
import HfDfs.Properties.FirstOccurrence
import HfDfs.Properties.Replacing
import HfDfs.Properties.HmsetBuffer
import HfDfs.Properties.Exchange
import HfDfs.Properties.LoginExchange
