import FoliOS.Strata.Mm.Atomic
import FoliOS.Strata.Mm.Supply
import FoliOS.Strata.Vmm.Protect
import FoliOS.Strata.Mm.Image
import FoliOS.Strata.Pool.Aligned
import FoliOS.Strata.Paging.Exact
import FoliOS.Strata.Paging.Bytewise
import FoliOS.Strata.Boot.MemoryMap
import FoliOS.Strata.Time.Hpet
import FoliOS.Strata.Mutex.Safety
import FoliOS.Strata.Sched.Queue
import FoliOS.Strata.Sched.Timeout
import FoliOS.Strata.Switch.Switch
import FoliOS.Vellum.Mm.Pma
import FoliOS.Vellum.BootInfo.Contained
import FoliOS.Vellum.Part
import FoliOS.Strata.Gnt.Runs
import FoliOS.Strata.Gnt.Interface
import FoliOS.Strata.Handle
import FoliOS.Strata.Pci.Register
import FoliOS.Folifs.Image
import FoliOS.Vellum.Caches
import FoliOS.Vellum.Modules
import FoliOS.Strata.Pmm.Requests
import FoliOS.Strata.Pmm.Panic
import FoliOS.Vellum.Calendar
import FoliOS.Vellum.Path
import FoliOS.Vellum.Variable
