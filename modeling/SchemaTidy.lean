import SchemaTidy.Main
import SchemaTidy.Files.Volume
import SchemaTidy.Proofs.Print.Preserve
import SchemaTidy.Proofs.Print.Tokens
import SchemaTidy.Proofs.Print.KeptComments
import SchemaTidy.Proofs.Edit.Calls
import SchemaTidy.Proofs.Edit.Settle
import SchemaTidy.Proofs.Edit.Fixpoint
import SchemaTidy.Proofs.Print.Frame
import SchemaTidy.Proofs.Literal.Run
import SchemaTidy.Proofs.Schema.Closure
import SchemaTidy.Proofs.Edit.Session
import SchemaTidy.Proofs.Batch.Schedule
import SchemaTidy.Proofs.Print.Respacing
import SchemaTidy.Proofs.Print.FinalLine
import SchemaTidy.Proofs.Diff.Patch
import SchemaTidy.Proofs.Migration.Entries
import SchemaTidy.Proofs.Print.PrintedLine
import SchemaTidy.Proofs.Literal.Kept
import SchemaTidy.Proofs.Tree.Progress
import SchemaTidy.Proofs.Edit.Unpacked
import SchemaTidy.Proofs.Migration.Comments
import SchemaTidy.Proofs.Edit.Regenerated
import SchemaTidy.Proofs.Token.Offset
import SchemaTidy.Proofs.Tree.Indentation
import SchemaTidy.Proofs.Print.SortRuns
import SchemaTidy.Proofs.Literal.Rewrapped
import SchemaTidy.Proofs.Literal.Lines
import SchemaTidy.Proofs.Tree.Attachment
import SchemaTidy.Proofs.Tree.CommentLog
import SchemaTidy.Proofs.Files.Discovery
