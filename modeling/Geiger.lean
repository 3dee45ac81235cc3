import Geiger.Library.SlidingWindow
import Geiger.Library.RatioOfSums
import Geiger.Library.Quantile
import Geiger.Library.OrderStatistic
import Geiger.Library.Fallible
import Geiger.Library.Runs
import Geiger.Library.Projection
import Geiger.Library.Progress
import Geiger.Library.Recent
import Geiger.Library.Broadcast
import Geiger.Library.LittleEndian
import Geiger.Library.Chunks
import Geiger.Library.Numbering
import Geiger.Library.Directory
import Geiger.Library.Potential
import Geiger.Library.Numeral
import Geiger.Library.Mixing
import Geiger.Library.Selection
import Geiger.Library.Exposition
import Geiger.Library.Csv
import Geiger.Library.Flags
import Geiger.Library.Http
import Geiger.Vpin.Bucket
import Geiger.Vpin.Bvc
import Geiger.Vpin.Window
import Geiger.Vpin.Bootstrap
import Geiger.Vpin.Engine
import Geiger.Vpin.Batch
import Geiger.Vpin.Refinement
import Geiger.Vpin.Warmup
import Geiger.Vpin.Ranges
import Geiger.Vpin.Units
import Geiger.Vpin.Panics
import Geiger.Vpin.Intensity
import Geiger.Vpin.Partition
import Geiger.Vpin.Restart
import Geiger.Vpin.Levels
import Geiger.Vpin.Cohorts
import Geiger.Vpin.Generator
import Geiger.Ingest.Types
import Geiger.Ingest.Json
import Geiger.Ingest.Decode
import Geiger.Ingest.Fixed8
import Geiger.Ingest.Digits
import Geiger.Ingest.Numerals
import Geiger.Ingest.Traffic
import Geiger.Ingest.Backoff
import Geiger.Ingest.Doubling
import Geiger.Ingest.Adapter
import Geiger.Ingest.Sequence
import Geiger.Ingest.Conservation
import Geiger.Ingest.Reconnect
import Geiger.Capture.Format
import Geiger.Capture.Recorder
import Geiger.Capture.Reader
import Geiger.Capture.Resume
import Geiger.Capture.RoundTrip
import Geiger.Capture.Tool
import Geiger.Capture.Args
import Geiger.Capture.Alignment
import Geiger.Service.Protocol
import Geiger.Service.Fanout
import Geiger.Service.Delivery
import Geiger.Service.Worker
import Geiger.Service.Order
import Geiger.Service.Precondition
import Geiger.Service.Config
import Geiger.Service.Validation
import Geiger.Service.Alive
import Geiger.Service.Accounting
import Geiger.Service.Streams
import Geiger.Service.Keys
import Geiger.Service.HotReload
import Geiger.Service.Tape
import Geiger.Service.Counters
import Geiger.Service.Projection
import Geiger.Service.Builds
import Geiger.Service.Startup
import Geiger.Service.Restart
import Geiger.Service.VenueStream
import Geiger.Service.Metrics
import Geiger.Service.Health
import Geiger.Service.Handshake
import Geiger.Calibrate.Replay
import Geiger.Calibrate.Lockstep
import Geiger.Calibrate.Mirror
import Geiger.Calibrate.Significance
import Geiger.Calibrate.Sweep
import Geiger.Calibrate.Panics
import Geiger.Calibrate.GridOrder
import Geiger.Calibrate.Agreement
import Geiger.Calibrate.Report
import Geiger.Calibrate.Args
import Geiger.Calibrate.Main
import Geiger.Client.Session
import Geiger.Client.CatchUp
import Geiger.Client.Live
import Geiger.Client.Staleness
import Geiger.Client.Deadline
import Geiger.Service.Lagging
import Geiger.Deployment.System
import Geiger.Deployment.Feeds
import Geiger.Deployment.Shown
import Geiger.Deployment.Settled
import Geiger.Deployment.Access
import Geiger.Deployment.Scrape
import Geiger.Deployment.Recording
import Geiger.Deployment.Commands
import Geiger.Bindings.PyVpin
