import AceShell.Names.Lookup
import AceShell.Paths.Agreement
import AceShell.Registry.Sessions
import AceShell.Registry.Broadcast
import AceShell.Shell.Failure
import AceShell.Shell.Scopes
import AceShell.Shell.Clone
import AceShell.Privilege.VolumeTable
import AceShell.Privilege.Authority
import AceShell.Terminal.BackPressure
import AceShell.Terminal.Recovery
import AceShell.Terminal.Rendition
import AceShell.Terminal.Keys
import AceShell.Linux.Keeps
import AceShell.Edit.Ends
import AceShell.Edit.OnLine
import AceShell.Edit.Rewind
import AceShell.Edit.SplitJoin
import AceShell.Edit.Insertion
import AceShell.Edit.Globals
import AceShell.Edit.NumberField
import AceShell.Iff.RoundTrip
import AceShell.Clipboard.ReadBack
import AceShell.Clipboard.Readers
import AceShell.Rexx.RoundTrip
import AceShell.Rexx.Forward
import AceShell.Console.Retained
import AceShell.Console.Title
import AceShell.Exec.TaskSignals
import AceShell.Exec.Replies
import AceShell.Exec.FindPort
import AceShell.Client.Retry
import AceShell.Paths.Growing
import AceShell.Dos.Input
import AceShell.Dos.PathParts
import AceShell.Dos.Scan
