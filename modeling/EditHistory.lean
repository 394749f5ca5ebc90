/-
Recorded edit histories: what changes of a document leave in its log, how the log
is kept within its limits, and how it is replayed; and what replaying it brings back.

A log takes every entry that it is given: that memory can run out is left out, and with it
the room that is kept for entries to come.  So is what is written for diagnosis, which
nothing reads, and what the program says of its own usage.
-/
import EditHistory.Disk
import EditHistory.Main
import EditHistory.Workspace.Step
import EditHistory.Proofs.Undo.Cursor
import EditHistory.Proofs.Undo.Modified
import EditHistory.Proofs.Truncation.Size
import EditHistory.Proofs.Undo.Replacement
import EditHistory.Proofs.Undo.Properties
import EditHistory.Proofs.Undo.Room
import EditHistory.Proofs.Session.Apparent
import EditHistory.Proofs.Sharing.Isolation
import EditHistory.Proofs.Session.FirstChanges
import EditHistory.Proofs.Session.Refusals
import EditHistory.Proofs.Session.Arguments
import EditHistory.Proofs.Session.Typing
import EditHistory.Proofs.Ledger.SwitchedOff
import EditHistory.Proofs.Ledger.AppendOnly
import EditHistory.Proofs.Ledger.Runs
import EditHistory.Proofs.Ledger.Announcements
import EditHistory.Proofs.Ledger.OpenUnits
import EditHistory.Proofs.Truncation.Outcome
import EditHistory.Proofs.Typing
import EditHistory.Proofs.Settings.Loading
import EditHistory.Proofs.Session.Properties
import EditHistory.Proofs.Session.WellKept
