import DualStm.Gate
import DualStm.Addresses
import DualStm.Updates
import DualStm.Opacity
import DualStm.ReadBack
import DualStm.Rollback
import DualStm.Conflicts
import DualStm.HeapBalance
import DualStm.Draining
import DualStm.Oracle
import DualStm.Transfers
import DualStm.Retries
import DualStm.Publication
import DualStm.WordOps
import DualStm.Barrier
import DualStm.Rounds
import DualStm.Timing
import DualStm.Endings
import DualStm.WakeUps
import DualStm.Countdown
import DualStm.Transactional
import DualStm.SegmentList
import DualStm.SegmentMemory
import DualStm.ReferenceBank
