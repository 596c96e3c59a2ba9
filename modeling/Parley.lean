import Parley.Act
import Parley.Backoff
import Parley.BufferPool
import Parley.Bytes
import Parley.Chat
import Parley.Client
import Parley.CommandLine
import Parley.Config
import Parley.Double
import Parley.Error
import Parley.EventLines
import Parley.EventStream
import Parley.Http
import Parley.Json.Basic
import Parley.Json.Numeral
import Parley.Json.Reader
import Parley.Json.Writer
import Parley.Main
import Parley.Notice
import Parley.Reply
import Parley.Retry
import Parley.RetryAfter
import Parley.Scenario
import Parley.Semaphore
import Parley.Session.Basic
import Parley.Session.Exchange
import Parley.Session.Opening
import Parley.Source
import Parley.Table
import Parley.Thread
import Parley.Time
import Parley.Twister
import Parley.Url
import Parley.Usage
import Parley.Utf8
import Parley.Wire
import Parley.World
import Parley.Proofs.Acts
import Parley.Proofs.Attempts
import Parley.Proofs.Course
import Parley.Proofs.Cover
import Parley.Proofs.Custody
import Parley.Proofs.Deadlines
import Parley.Proofs.Delivery
import Parley.Proofs.Events
import Parley.Proofs.Failures
import Parley.Proofs.Instants
import Parley.Proofs.Job
import Parley.Proofs.Ledger
import Parley.Proofs.Moves
import Parley.Proofs.Payloads
import Parley.Proofs.Pool
import Parley.Proofs.Reckoning
import Parley.Proofs.Replies
import Parley.Proofs.Texts
import Parley.Proofs.Trades
import Parley.Proofs.Waits
import Parley.Proofs.Log
import Parley.Proofs.Timeouts
import Parley.Proofs.Exchanges
import Parley.Proofs.Shutdown
import Parley.Proofs.Streams
import Parley.Proofs.Register
import Parley.Proofs.RoundTrip
import Parley.Proofs.Requests
import Parley.Proofs.Views
import Parley.Proofs.Counts
import Parley.Proofs.Tally
import Parley.Proofs.Report
import Parley.Proofs.Twins
import Parley.Proofs.Ceilings
import Parley.Proofs.Replacements
import Parley.Proofs.Reads
import Parley.Proofs.Endings
import Parley.Proofs.Seeks
import Parley.Proofs.Breaks
import Parley.Proofs.Drains
import Parley.Proofs.Rounding
import Parley.Proofs.Takings
import Parley.Proofs.Delays
import Parley.Proofs.Growth
import Parley.Proofs.Decimals
import Parley.Proofs.Numerals
import Parley.Proofs.Permits
import Parley.Proofs.Buffers
import Parley.Proofs.Stamps
import Parley.Proofs.Addresses
import Parley.Proofs.Arguments
import Parley.Proofs.Bodies
import Parley.Proofs.Openings
import Parley.Proofs.Paths
import Parley.Proofs.Fields
import Parley.Proofs.Intakes
import Parley.Proofs.Ranges
