import ShaderReport.Main
import ShaderReport.Program
import ShaderReport.Toml.Reader
import ShaderReport.CommandLine
import ShaderReport.Bench
import ShaderReport.OutputDir
import ShaderReport.Manager.Loop
import ShaderReport.Single
import ShaderReport.Log
import ShaderReport.FileSystem.Access
import ShaderReport.Report.Decode
import ShaderReport.Json.Reader
import ShaderReport.Json.Printer
import ShaderReport.Analysis.Scan
import ShaderReport.Asset
import ShaderReport.Proofs.Manager.Run
import ShaderReport.Proofs.Manager.Balance
import ShaderReport.Proofs.Analysis.Combine
import ShaderReport.Proofs.Text.Blank
import ShaderReport.Proofs.Text.Lines
import ShaderReport.Proofs.Analysis.Fields
import ShaderReport.Proofs.Analysis.Layout
import ShaderReport.Proofs.Analysis.Variants
import ShaderReport.Proofs.Job.Slices
import ShaderReport.Proofs.Text.Utf8
import ShaderReport.Proofs.Json.Scalars
import ShaderReport.Proofs.Json.Spelling
import ShaderReport.Proofs.Report.RoundTrip
import ShaderReport.Proofs.Path.Names
import ShaderReport.Proofs.Path.Last
import ShaderReport.Proofs.Path.Ancestors
import ShaderReport.Proofs.Asset.Grammar
import ShaderReport.Proofs.FileSystem.Walk
import ShaderReport.Proofs.FileSystem.Access
import ShaderReport.Proofs.FileSystem.Directories
import ShaderReport.Proofs.Report.Name
import ShaderReport.Proofs.Analyze.Distinct
import ShaderReport.Proofs.Job.Finish
import ShaderReport.Proofs.Manager.Idle
import ShaderReport.Proofs.Analyze.Session
import ShaderReport.Proofs.Analyze.Written
import ShaderReport.Proofs.Analyze.Reports
import ShaderReport.Proofs.Manager.Calls
import ShaderReport.Proofs.Manager.Flight
import ShaderReport.Proofs.Manager.Clients
import ShaderReport.Proofs.Analyze.Outcomes
import ShaderReport.Proofs.Analyze.Failures
import ShaderReport.Proofs.Job.Timing
import ShaderReport.Proofs.Analyze.Refusals
import ShaderReport.Proofs.Manager.Submission
import ShaderReport.Proofs.Config.Merge
import ShaderReport.Proofs.Config.Platforms
import ShaderReport.Proofs.Program.Agreement
import ShaderReport.Proofs.Job.Outcome
import ShaderReport.Proofs.Job.Frame
import ShaderReport.Proofs.Analyze.Arguments
import ShaderReport.Proofs.Manager.Offline
import ShaderReport.Proofs.Manager.HostLoop
import ShaderReport.Proofs.Analysis.Pragma
import ShaderReport.Proofs.Text.Lossy
import ShaderReport.Proofs.Report.Sharing
import ShaderReport.Proofs.Json.Locality
import ShaderReport.Proofs.Json.Members
import ShaderReport.Proofs.Report.Draft
import ShaderReport.Proofs.Report.Members
import ShaderReport.Proofs.Report.Required
import ShaderReport.Proofs.Subscription.Switchboard
import ShaderReport.Proofs.CommandLine.Rendering
