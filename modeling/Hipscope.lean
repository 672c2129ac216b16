import Hipscope.Graph.Kahn
import Hipscope.Graph.Search
import Hipscope.Queue.Stages
import Hipscope.Redline.Recorder
import Hipscope.Redline.EntryVisibility
import Hipscope.Redline.Refresh
import Hipscope.Redline.PhysicalRace
import Hipscope.Redline.Scheduling
import Hipscope.Replay.Reorder
import Hipscope.Replay.PhasePlan
import Hipscope.Pm4.Gfx10
import Hipscope.Pm4.Gfx12
import Hipscope.Replay.Commands
import Hipscope.Queue.Fence
import Hipscope.Replay.SingleIb
import Hipscope.Replay.Epochs
import Hipscope.Pm4.Elision
import Hipscope.Pm4.Loads
import Hipscope.Pm4.Patch
import Hipscope.Replay.GridPatching
import Hipscope.Serve.Descriptors
import Hipscope.Serve.Mirror
import Hipscope.Serve.Transcript
import Hipscope.Serve.Pending
import Hipscope.Serve.Accounting
import Hipscope.Redline.Quiescence
import Hipscope.Replay.Controller
import Hipscope.Redline.Identity
import Hipscope.Emit.EosChunks
import Hipscope.Emit.ToolChunks
import Hipscope.Client.Streams
import Hipscope.Client.Replies
import Hipscope.Swap.Snapshot
import Hipscope.Kv.AdaptiveRuns
import Hipscope.Dsml.RoundTrip
import Hipscope.Dsml.Recovery
import Hipscope.Dsml.GrammarComplete
import Hipscope.Dsml.GrammarChunks
import Hipscope.Dsml.GrammarParsed
import Hipscope.Tokenizer.Split
import Hipscope.Tokenizer.Signature
import Hipscope.Serve.SwapMap
import Hipscope.Spec.Lossless
import Hipscope.Spec.TreeVerify
import Hipscope.Spec.TreeBest
import Hipscope.Tokenizer.Prompt
import Hipscope.Qwen.GrammarCuts
import Hipscope.Quantize.E8Index
import Hipscope.Hfq.RoundTrip
import Hipscope.Chance.Draws
import Hipscope.Spec.SworTarget
import Hipscope.Decode.CachePlan
import Hipscope.Residency.Admission
import Hipscope.Residency.SlotPool
import Hipscope.Lru.Cache
import Hipscope.Residency.WorkingSet
import Hipscope.Swap.Restore
import Hipscope.Hermes.Agreement
import Hipscope.Nested.Table
import Hipscope.Config.RoundTrip
import Hipscope.Serve.SlotBatch
import Hipscope.Emit.ThinkChunks
import Hipscope.Hermes.Strict
import Hipscope.Pflash.Select
import Hipscope.Spec.Constrained
import Hipscope.Spec.NgramNaive
import Hipscope.Quantize.HessianSound
import Hipscope.Emit.ToolLeak
import Hipscope.Emit.EosLeak
import Hipscope.Shard.Partition
import Hipscope.Kv.SlotTiles
import Hipscope.Kv.ChunkPlan
import Hipscope.Cask.Fold
import Hipscope.Reap.Accepted
import Hipscope.Reap.Prune
