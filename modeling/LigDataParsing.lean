import LigDataParsing.Gregorian
import LigDataParsing.Machine
import LigDataParsing.KeyedSort
import LigDataParsing.Lookup
import LigDataParsing.Backtrack
import LigDataParsing.Selection
import LigDataParsing.Positions
import LigDataParsing.Extremum
import LigDataParsing.RobinHood
import LigDataParsing.OrderedHash
import LigDataParsing.HashedMap
import LigDataParsing.ThreadPool
import LigDataParsing.Crew
import LigDataParsing.FileStore
import LigDataParsing.Binary64
import LigDataParsing.GPSTime
import LigDataParsing.GPSTimeAlgorithm
import LigDataParsing.Decimal
import LigDataParsing.TimeString
import LigDataParsing.WholeSeconds
import LigDataParsing.TimeText
import LigDataParsing.PostLigResult
import LigDataParsing.Download
import LigDataParsing.GeoTools
import LigDataParsing.LocStruct
import LigDataParsing.CostFunctor
import LigDataParsing.LigTools
import LigDataParsing.Enumeration
import LigDataParsing.Scan
import LigDataParsing.Elimination
import LigDataParsing.ThreadLoc
import LigDataParsing.Located
import LigDataParsing.Runs
import LigDataParsing.Posted
import LigDataParsing.Watermark
import LigDataParsing.Wait
import LigDataParsing.Stations
import LigDataParsing.ThreadLoadData
import LigDataParsing.Threads
import LigDataParsing.Queues
import LigDataParsing.Replay
import LigDataParsing.Schedule
import LigDataParsing.Reprocess
import LigDataParsing.Report
import LigDataParsing.Arrival
import LigDataParsing.Consistency
import LigDataParsing.Conversion
import LigDataParsing.WindowPool
import LigDataParsing.BaseStation
import LigDataParsing.InnerLoop
import LigDataParsing.Program
import LigDataParsing.HashedPool
import LigDataParsing.Feed
import LigDataParsing.Reuse
import LigDataParsing.Parallel
import LigDataParsing.Record
import LigDataParsing.Appenders
import LigDataParsing.LocFile
import LigDataParsing.Delivery
import LigDataParsing.Logger
import LigDataParsing.Sites
import LigDataParsing.Geometry
import LigDataParsing.Idle
import LigDataParsing.Service
import LigDataParsing.Provenance
