import VariabilityTestbed.Variability.StackContents
import VariabilityTestbed.Variability.Sleep
import VariabilityTestbed.Variability.FileFold
import VariabilityTestbed.Variability.ClassTotals
import VariabilityTestbed.Translate.SingleStep
import VariabilityTestbed.Translate.Retranslate
import VariabilityTestbed.Translate.FindPc
import VariabilityTestbed.Exec.Unchaining
import VariabilityTestbed.Exec.CpuExec
import VariabilityTestbed.Exec.InsnPower
import VariabilityTestbed.Memory.DmaExact
import VariabilityTestbed.Block.WriteOrder
import VariabilityTestbed.Migration.RamMigration
import VariabilityTestbed.Migration.SaveVm
import VariabilityTestbed.Migration.VmState
import VariabilityTestbed.Json.Grammar
import VariabilityTestbed.Block.Requests
import VariabilityTestbed.Block.Multiwrite
import VariabilityTestbed.Virtio.AvailBytes
import VariabilityTestbed.Virtio.Notify
import VariabilityTestbed.Tcg.LivenessSound
import VariabilityTestbed.Timers.ActiveList
import VariabilityTestbed.Timers.Icount
import VariabilityTestbed.Timers.Ptimer
import VariabilityTestbed.Timers.Ticks
import VariabilityTestbed.Variability.ErrorModel
import VariabilityTestbed.Exec.Injection
import VariabilityTestbed.Arm.Exceptions
import VariabilityTestbed.Arm.Subpages
import VariabilityTestbed.Irq.Outputs
import VariabilityTestbed.Irq.SysTick
import VariabilityTestbed.Exec.CodeBitmap
import VariabilityTestbed.Exec.PageFlush
import VariabilityTestbed.Memory.RamAlloc
import VariabilityTestbed.Block.Open
import VariabilityTestbed.Block.SnapshotRefcount
import VariabilityTestbed.Block.TableGrowth
import VariabilityTestbed.Block.Commit
