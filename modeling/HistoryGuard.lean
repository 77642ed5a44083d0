import HistoryGuard.Main
import HistoryGuard.Session.Basic
import HistoryGuard.Proofs.Run
import HistoryGuard.Proofs.Shell
import HistoryGuard.Proofs.Workspace
import HistoryGuard.Proofs.Step
import HistoryGuard.Proofs.Session
import HistoryGuard.Proofs.Gate.Approval
import HistoryGuard.Proofs.Edit.Draft
import HistoryGuard.Proofs.Edit.Approved
import HistoryGuard.Proofs.Containment.Freshness
import HistoryGuard.Proofs.Containment.Pending
import HistoryGuard.Proofs.Git.Snapshot
import HistoryGuard.Proofs.Gate.Editable
import HistoryGuard.Proofs.Git.Answers
import HistoryGuard.Proofs.CommandLine.Check
import HistoryGuard.Proofs.Git.Abort
import HistoryGuard.Proofs.Git.Reception
import HistoryGuard.Proofs.CommandLine.Ending
import HistoryGuard.Proofs.Gate.Agreement
import HistoryGuard.Proofs.Containment.Count
import HistoryGuard.Proofs.Edit.Forgetting
import HistoryGuard.Proofs.Edit.Plan
import HistoryGuard.Proofs.Edit.Reword
import HistoryGuard.Proofs.Edit.Replay
import HistoryGuard.Proofs.Gate.Independence
import HistoryGuard.Proofs.Containment.Apart
import HistoryGuard.Proofs.Gate.LocalBranches
import HistoryGuard.Proofs.Gate.Failing
import HistoryGuard.Proofs.Window.Contained
import HistoryGuard.Proofs.Window.Course
import HistoryGuard.Proofs.Containment.Background
import HistoryGuard.Proofs.Window.Keys
import HistoryGuard.Proofs.Settings.Patterns
import HistoryGuard.Proofs.Git.LogEntries
import HistoryGuard.Proofs.Settings.Reload
import HistoryGuard.Proofs.Git.RemoteBranches
import HistoryGuard.Proofs.Gate.Verdict
import HistoryGuard.Proofs.Repositories
import HistoryGuard.Proofs.Glob.Language
import HistoryGuard.Proofs.Settings.Layers
import HistoryGuard.Proofs.Settings.Pieces
import HistoryGuard.Proofs.CommandLine.Options
import HistoryGuard.Proofs.CommandLine.Overriding
import HistoryGuard.Proofs.Containment.Economy
import HistoryGuard.Proofs.Containment.Failed
import HistoryGuard.Proofs.Containment.Refusal
import HistoryGuard.Proofs.Edit.Unchanged
