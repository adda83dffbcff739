import GoFilesystem.Local.Publication
import GoFilesystem.Local.CreateOnly
import GoFilesystem.Local.Conservation
import GoFilesystem.Local.Faults
import GoFilesystem.Ftp.Serial
import GoFilesystem.Ftp.Replay
import GoFilesystem.Sessions
import GoFilesystem.Recovery
import GoFilesystem.Listings
import GoFilesystem.Identity
import GoFilesystem.Relisting
import GoFilesystem.Mutations
import GoFilesystem.Hostile
import GoFilesystem.Containment
import GoFilesystem.Memory.Publication
import GoFilesystem.Memory.Refinement
import GoFilesystem.Iofs.Paging
import GoFilesystem.Decorator.Isolation
import GoFilesystem.Decorator.Stack
import GoFilesystem.Decorator.Retry
import GoFilesystem.Decorator.View
import GoFilesystem.S3.Keys
import GoFilesystem.R2.Endpoint
import GoFilesystem.Checksums
import GoFilesystem.Fstest.Fault
import GoFilesystem.Local.RenameInformation
import GoFilesystem.Local.Children
import GoFilesystem.Ranges
import GoFilesystem.Redact
