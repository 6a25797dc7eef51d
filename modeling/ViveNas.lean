import ViveNas.Proofs.Grouping
import ViveNas.Proofs.Compaction
import ViveNas.Proofs.Scatter
import ViveNas.Proofs.Traceless
import ViveNas.Proofs.Durable
import ViveNas.Proofs.Statuses
import ViveNas.Proofs.Links
import ViveNas.Proofs.Listing
import ViveNas.Proofs.Reclaim
import ViveNas.Proofs.Refinement
import ViveNas.Proofs.Handles
import ViveNas.Proofs.Naming
import ViveNas.Proofs.Numbers
import ViveNas.Proofs.Alternate
import ViveNas.Proofs.Eof
import ViveNas.Proofs.Truncate
import ViveNas.Proofs.Operands
import ViveNas.Proofs.ZeroLength
import ViveNas.Proofs.Iteration
import ViveNas.Proofs.ExtentSize
import ViveNas.Proofs.SeqFile
import ViveNas.Proofs.AofNames
import ViveNas.Proofs.Splitting
import ViveNas.Proofs.Append
import ViveNas.Proofs.Children
import ViveNas.Proofs.AofUsers
import ViveNas.Proofs.Observed
import ViveNas.Proofs.Saved
import ViveNas.Lib.LockOrder
import ViveNas.Proofs.Locks
