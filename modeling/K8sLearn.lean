import K8sLearn.Benchmark.Requests
import K8sLearn.Blog.Align
import K8sLearn.Blog.Catalog
import K8sLearn.Blog.Headings
import K8sLearn.Blog.OwnText
import K8sLearn.Blog.Sync
import K8sLearn.Blog.Translate
import K8sLearn.Discovery.Agents
import K8sLearn.Discovery.Clusters
import K8sLearn.Discovery.Noise
import K8sLearn.Discovery.Pipeline
import K8sLearn.Discovery.Rules
import K8sLearn.Gates.Analyzer
import K8sLearn.Gates.Audit
import K8sLearn.Gates.Canonical
import K8sLearn.Gates.Comments
import K8sLearn.Gates.ConstBlock
import K8sLearn.Gates.ConstComments
import K8sLearn.Gates.GoFile
import K8sLearn.Gates.History
import K8sLearn.Gates.Items
import K8sLearn.Gates.Parser
import K8sLearn.Gates.Probes
import K8sLearn.Gates.Range
import K8sLearn.Gates.Reading
import K8sLearn.Gates.Release
import K8sLearn.Gates.RoundTrip
import K8sLearn.Gates.Source
import K8sLearn.Hif4.Attention
import K8sLearn.Hif4.Balancing
import K8sLearn.Hif4.Baseline
import K8sLearn.Hif4.BlockSearch
import K8sLearn.Hif4.Calibration
import K8sLearn.Hif4.Chunks
import K8sLearn.Hif4.Domination
import K8sLearn.Hif4.E4m3
import K8sLearn.Hif4.Format
import K8sLearn.Hif4.Gptq
import K8sLearn.Hif4.Hadamard
import K8sLearn.Hif4.Jacobian
import K8sLearn.Hif4.Nvfp4
import K8sLearn.Hif4.Optimality
import K8sLearn.Hif4.Quantize
import K8sLearn.Hif4.Refinement
import K8sLearn.Hif4.Rotation
import K8sLearn.Hif4.RoundTrip
import K8sLearn.Hif4.ScaleRounding
import K8sLearn.Hif4.Scales
import K8sLearn.Hif4.Search
import K8sLearn.Hif4.Smoothing
import K8sLearn.Hif4.Value
import K8sLearn.Hif4.Windows
import K8sLearn.Lib.Breaker
import K8sLearn.Lib.Checked
import K8sLearn.Lib.Collect
import K8sLearn.Lib.EarlyExit
import K8sLearn.Lib.Encoding
import K8sLearn.Lib.Entropy
import K8sLearn.Lib.Greedy
import K8sLearn.Lib.Interleaving
import K8sLearn.Lib.Lists
import K8sLearn.Lib.Loop
import K8sLearn.Lib.Nearest
import K8sLearn.Lib.Newest
import K8sLearn.Lib.Numbering
import K8sLearn.Lib.Overlap
import K8sLearn.Lib.Patch
import K8sLearn.Lib.Pattern
import K8sLearn.Lib.PyDict
import K8sLearn.Lib.PyValue
import K8sLearn.Lib.Rounding
import K8sLearn.Lib.Scan
import K8sLearn.Lib.Spaces
import K8sLearn.Lib.Sparse
import K8sLearn.Lib.Tally
import K8sLearn.Lib.Tensor
import K8sLearn.Lib.Text
import K8sLearn.Lib.TopK
import K8sLearn.Lib.UnionFind
import K8sLearn.Lib.Windows
import K8sLearn.Papers.Chunking
import K8sLearn.Papers.Dedupe
import K8sLearn.Papers.FullText
import K8sLearn.Papers.InPlace
import K8sLearn.Papers.Paper
import K8sLearn.Papers.Phrase
import K8sLearn.Papers.Score
import K8sLearn.Papers.Search
import K8sLearn.Papers.Service
import K8sLearn.Papers.Vector
import K8sLearn.Papers.YearFilter
import K8sLearn.Pilot.Engine
import K8sLearn.Pilot.Grounded
import K8sLearn.Pilot.Handlers
import K8sLearn.Pilot.Judge
import K8sLearn.Pilot.Malformed
import K8sLearn.Pilot.Readable
import K8sLearn.Pilot.Refusals
import K8sLearn.Pilot.Reply
import K8sLearn.Pilot.Retry
import K8sLearn.Pilot.Saved
import K8sLearn.Pilot.Wording
import K8sLearn.Pilot.Worker
import K8sLearn.Pprof.Exporter
import K8sLearn.Pprof.Names
import K8sLearn.Pprof.Readings
import K8sLearn.Pprof.Retention
import K8sLearn.Pprof.Survival
import K8sLearn.Pprof.Trigger
import K8sLearn.Rag.Agent
import K8sLearn.Rag.Fusion
import K8sLearn.Rag.Metrics
import K8sLearn.Rag.Recall
import K8sLearn.Rag.Rounds
import K8sLearn.Report.Agreement
import K8sLearn.Report.Build
import K8sLearn.Report.Package
import K8sLearn.Report.Sources
import K8sLearn.Report.Verify
import K8sLearn.SelfCheck.Attention
import K8sLearn.SelfCheck.Contract
import K8sLearn.SelfCheck.Datasets
import K8sLearn.SelfCheck.Gate
import K8sLearn.SelfCheck.Legal
import K8sLearn.SelfCheck.Linear
import K8sLearn.SelfCheck.Params
import K8sLearn.SelfCheck.Run
import K8sLearn.SelfCheck.State
import K8sLearn.SelfCheck.Submission
import K8sLearn.Transformer.Dataset
import K8sLearn.Transformer.Evaluate
import K8sLearn.Transformer.Generate
import K8sLearn.Transformer.Loss
import K8sLearn.Transformer.Model
import K8sLearn.Transformer.Noninterference
import K8sLearn.Transformer.Runs
import K8sLearn.Transformer.Stopping
import K8sLearn.Transformer.Tokenizer
import K8sLearn.Transformer.Translate
