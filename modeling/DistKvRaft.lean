import DistKvRaft.Foundation.Lists
import DistKvRaft.Foundation.Machine
import DistKvRaft.Foundation.Refinement
import DistKvRaft.Foundation.FileStore
import DistKvRaft.Foundation.Sink
import DistKvRaft.Foundation.Grouping
import DistKvRaft.Foundation.Watermark
import DistKvRaft.Foundation.Traversal
import DistKvRaft.Go.Strings
import DistKvRaft.Go.Utf8
import DistKvRaft.Go.Json
import DistKvRaft.Go.JsonGrammar
import DistKvRaft.Labgob.Check
import DistKvRaft.Labgob.CheckType
import DistKvRaft.Labrpc.Network
import DistKvRaft.Labrpc.Calls
import DistKvRaft.Labrpc.Delivery
import DistKvRaft.Labrpc.Statistics
import DistKvRaft.Labrpc.Ends
import DistKvRaft.Raft.Persister
import DistKvRaft.Raft.Restart
import DistKvRaft.Raft.Checker
import DistKvRaft.Raft.Agreement
import DistKvRaft.Raft.Leadership
import DistKvRaft.Raft.Snapshots
import DistKvRaft.Raft.Wiring
import DistKvRaft.MapReduce.Records
import DistKvRaft.MapReduce.Worker
import DistKvRaft.MapReduce.Reduction
import DistKvRaft.MapReduce.Partition
import DistKvRaft.MapReduce.Pipeline
import DistKvRaft.MapReduce.Leftovers
import DistKvRaft.MapReduce.Failures
import DistKvRaft.MapReduce.Coordinator
import DistKvRaft.MapReduce.Reissue
import DistKvRaft.MapReduce.Reports
import DistKvRaft.MapReduce.Requests
import DistKvRaft.MapReduce.Execution
import DistKvRaft.MapReduce.Cluster
import DistKvRaft.MapReduce.Phases
import DistKvRaft.MapReduce.Completion
import DistKvRaft.MapReduce.Result
import DistKvRaft.MapReduce.Progress
import DistKvRaft.ShardCtrler.Server
import DistKvRaft.ShardCtrler.Filter
import DistKvRaft.ShardCtrler.Clerk
import DistKvRaft.ShardCtrler.Replies
import DistKvRaft.ShardCtrler.Executions
import DistKvRaft.ShardCtrler.IndexChannel
import DistKvRaft.ShardCtrler.IndexReuse
import DistKvRaft.ShardCtrler.NetPartition
import DistKvRaft.ShardKV.Clerk
import DistKvRaft.ShardKV.Attempts
