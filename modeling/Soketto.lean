import Soketto.Lib.BigEndian
import Soketto.Lib.Incremental
import Soketto.Lib.Chunked
import Soketto.Lib.Fiber
import Soketto.Lib.Race
import Soketto.Lib.Shut
import Soketto.Lib.Text
import Soketto.Lib.Sha1
import Soketto.Lib.Search
import Soketto.Lib.Interleave
import Soketto.Lib.Fuse
import Soketto.Lib.Kept
import Soketto.Lib.Wp
import Soketto.Base
import Soketto.Base.Codec
import Soketto.Base.Canonical
import Soketto.Extension
import Soketto.Extension.Deflate
import Soketto.Connection
import Soketto.Connection.Receive
import Soketto.Connection.Send
import Soketto.Connection.Write
import Soketto.Connection.Read
import Soketto.Feed
import Soketto.Feed.Refine
import Soketto.Feed.Calls
import Soketto.Feed.Frames
import Soketto.Feed.Rounds
import Soketto.Chunking
import Soketto.Grammar
import Soketto.RoundTrip
import Soketto.Pong
import Soketto.TooLarge
import Soketto.Accounting
import Soketto.Connection.Sections
import Soketto.Atomicity
import Soketto.Heard
import Soketto.Delivery
import Soketto.Listening
import Soketto.TwoEnds
import Soketto.Echo
import Soketto.Parting
import Soketto.EchoSession
import Soketto.ClosingHandshake
import Soketto.Compressed
import Soketto.Uncompressed
import Soketto.Extension.Compressor
import Soketto.Deflated
import Soketto.Carried
import Soketto.CompressedRun
import Soketto.Closing
import Soketto.FailedReads
import Soketto.Shutdown
import Soketto.Handshake
import Soketto.Handshake.Server
import Soketto.Handshake.Http
import Soketto.Handshake.Client
import Soketto.Handshake.Render
import Soketto.Handshake.Failures
import Soketto.Offers
import Soketto.Windows
import Soketto.Parameters
import Soketto.Negotiation
import Soketto.Setters
import Soketto.Handshake.Head
import Soketto.Handshake.Parser
import Soketto.Agreement
import Soketto.TwoServers
import Soketto.HeadSearch
import Soketto.ReceiveRequest
import Soketto.ReceiveResponse
import Soketto.Opening
import Soketto.Answers
import Soketto.Session
import Soketto.CompressedSession
import Soketto.Announced
import Soketto.Configured
import Soketto.Tokens
import Soketto.Termination
import Soketto.Progress
import Soketto.Results
