import MediaApi.Benchmark.Packets
import MediaApi.Benchmark.Panics
import MediaApi.Benchmark.PeakError
import MediaApi.Benchmark.Source
import MediaApi.FrontEnd.CircularWait
import MediaApi.FrontEnd.Release
import MediaApi.Grpc.Drain
import MediaApi.Grpc.Refinement
import MediaApi.Grpc.Responses
import MediaApi.Http.Delivery
import MediaApi.Options.Resolve
import MediaApi.Pool.Accounting
import MediaApi.Pool.Backpressure
import MediaApi.Pool.Counts
import MediaApi.Pool.EndOfInput
import MediaApi.Pool.Retry
import MediaApi.Pool.Shutdown
import MediaApi.Pool.Survival
import MediaApi.Server.Wedge
import MediaApi.Stats.Load
import MediaApi.Stats.Requests
import MediaApi.Stats.Window
import MediaApi.Tcp.Metadata
import MediaApi.Tcp.Replies
