import PineTools.Construct.Catalogue
import PineTools.Json.Parser
import PineTools.Json.Printer
import PineTools.Settings.Basic
import PineTools.Layout.Format
import PineTools.Repair.Fix
import PineTools.Convert.Basic
import PineTools.History.Store
import PineTools.Rename.Load
import PineTools.Settings.Config
import PineTools.Workbench.Session
import PineTools.Service.Routes
import PineTools.Text.LineStarts
import PineTools.Proofs.Layout.Idempotence
import PineTools.Proofs.Repair.Comments
import PineTools.Proofs.Scan.Composition
import PineTools.Proofs.Repair.Structure
import PineTools.Proofs.Validate.Noninterference
import PineTools.Proofs.Validate.Structural
import PineTools.Proofs.Repair.Idempotence
import PineTools.Proofs.Convert.Targets
import PineTools.Proofs.Convert.Names
import PineTools.Proofs.Convert.Restoring
import PineTools.Proofs.History.Caching
import PineTools.Proofs.Validate.Budget
import PineTools.Proofs.Convert.Validity
import PineTools.Proofs.Layout.Versions
import PineTools.Proofs.Convert.MarkedDefinitions
import PineTools.Proofs.Convert.RenamedCalls
import PineTools.Proofs.Layout.Reads
import PineTools.Proofs.Layout.Validity
import PineTools.Proofs.Repair.Listing
import PineTools.Proofs.Layout.ChangeLog
import PineTools.Proofs.Validate.Diagnostics
import PineTools.Proofs.History.Entries
import PineTools.Proofs.Settings.Resolution
import PineTools.Proofs.Construct.Arguments
import PineTools.Proofs.Validate.ReportedLines
import PineTools.Proofs.Construct.BareTokens
import PineTools.Proofs.Service.Errors
import PineTools.Proofs.Text.Simultaneous
import PineTools.Proofs.Layout.Rounds
