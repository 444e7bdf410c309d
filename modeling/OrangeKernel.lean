import OrangeKernel.Boot.Accepts
import OrangeKernel.Cpio.Safety
import OrangeKernel.Fdt.Safety
import OrangeKernel.Hart.Greeting
import OrangeKernel.Irq.Callbacks
import OrangeKernel.Irq.Fairness
import OrangeKernel.Shell.Periodic
import OrangeKernel.Shell.Readline
import OrangeKernel.Shell.Seconds
import OrangeKernel.Slab.Reclaim
import OrangeKernel.Slab.Refusals
import OrangeKernel.Thread.GroupStop
import OrangeKernel.Thread.Interrupts
import OrangeKernel.Thread.UartSyscall
import OrangeKernel.Thread.Wakeups
import OrangeKernel.Timer.Deadline
import OrangeKernel.Timer.Firing
import OrangeKernel.Trap.Switched
import OrangeKernel.Uart.Service
import OrangeKernel.Uart.Wakeups
